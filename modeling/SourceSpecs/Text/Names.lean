/-!
Sets of names, kept as ascending lists without repeats. The order is that of code points.
-/
namespace SourceSpecs.Text

def insertName (n : String) : List String → List String
  | [] => [n]
  | m :: rest =>
    if n < m then n :: m :: rest
    else if n = m then m :: rest
    else m :: insertName n rest

def sortNames (names : List String) : List String := names.foldr insertName []

theorem mem_insertName {n x : String} {names : List String} :
    x ∈ insertName n names ↔ x = n ∨ x ∈ names := by
  induction names with
  | nil => simp [insertName]
  | cons m rest ih =>
    unfold insertName
    split
    · simp
    · split
      · rename_i e; subst e; simp
      · simp only [List.mem_cons, ih]; grind

theorem mem_sortNames {x : String} {names : List String} : x ∈ sortNames names ↔ x ∈ names := by
  induction names with
  | nil => simp [sortNames]
  | cons n rest ih =>
    rw [List.mem_cons, ← ih]
    exact mem_insertName

end SourceSpecs.Text
