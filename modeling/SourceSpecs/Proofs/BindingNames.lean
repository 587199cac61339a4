import SourceSpecs.Proofs.TypeArguments
/-!
Names that are introduced. The collector leaves out the name of a declaration, and of a type
parameter. A class expression, the key of a mapped type and an inferred type introduce a name as
well, and the collector takes theirs for a name that is referred to.
-/
namespace SourceSpecs.Syntax

def Kind.bindsLocally : Kind → Bool
  | .classExpression | .mappedKey | .inferredType => true
  | _ => false

def Kind.introducesType (k : Kind) : Bool := k.declaresType || k.bindsLocally

theorem Kind.not_declaresType_iff {k : Kind} (introduces : k.introducesType = true) :
    ¬ k.declaresType = true ↔ k.bindsLocally = true := by
  cases k with
  | typeName | keyword | symbol => cases introduces
  | _ => revert introduces; decide

namespace Tree

open Text

/-- The way ends at the name that the node above introduces. -/
def Introduced : List (Tree × Nat) → Prop
  | (p, i) :: _ => p.kind.introducesType = true ∧ p.nameIndex? = some i
  | [] => False

/-- The way ends at the name of a node that binds it locally. -/
def BoundLocally : List (Tree × Nat) → Prop
  | (p, i) :: _ => p.kind.bindsLocally = true ∧ p.nameIndex? = some i
  | [] => False

/-- Every type name that reads `n` introduces it, and no key of a pattern, no binding of an import
    and no type with arguments gives the name. -/
structure OnlyIntroduced (source : List Char) (n : String) (root : Tree) : Prop where
  introduced {way : List (Tree × Nat)} {v : Tree} (lies : Lies root way v)
    (kind : v.kind = .typeName) (text : v.text source = n) : Introduced way
  not_bound {way : List (Tree × Nat)} {v : Tree} (lies : Lies root way v)
    (kind : v.kind = .pairPattern) : n ∉ boundName source v.children
  not_imported {way : List (Tree × Nat)} {v : Tree} (lies : Lies root way v)
    (kind : v.kind = .importSpecifier) : n ∉ localName source v
  not_base {way : List (Tree × Nat)} {v name : Tree} (lies : Lies root way v)
    (kind : v.kind = .genericType) (named : v.child? .name = some name) : name.text source ≠ n

section Introduced

variable {source : List Char} {n : String} {root v : Tree} {way : List (Tree × Nat)}

theorem boundLocally_iff (introduced : Introduced way) :
    BoundLocally way ↔ ¬ NamesDeclaration way := by
  cases way with
  | nil => exact introduced.elim
  | cons above _ =>
    obtain ⟨p, i⟩ := above
    obtain ⟨introduces, here⟩ := introduced
    have exclusive := Kind.not_declaresType_iff introduces
    rw [BoundLocally, NamesDeclaration, and_iff_left here, and_iff_left here]
    exact exclusive.symm

/-- An occurrence that introduces a name refers to it just where it is bound locally. -/
theorem refers_iff_boundLocally (kind : v.kind = .typeName) (introduced : Introduced way) :
    Refers source (v.text source) way v ↔ BoundLocally way := by
  rw [boundLocally_iff introduced]
  constructor
  · intro refers
    cases refers with
    | plain _ _ free => exact free
    | generic other | qualified other | bound other | imported other =>
      rw [kind] at other
      cases other
  · exact .plain kind rfl

theorem lies_specifier {clause list specifier : Tree} (lies : Lies root way v)
    (clauseOf : clause ∈ v.childrenOf .importClause)
    (listOf : list ∈ clause.childrenOf .namedImports)
    (specifierOf : specifier ∈ list.childrenOf .importSpecifier) :
    ∃ way', Lies root way' specifier := by
  obtain ⟨i, clause_here⟩ := List.mem_iff_getElem?.1 (mem_childrenOf clauseOf).1
  obtain ⟨j, list_here⟩ := List.mem_iff_getElem?.1 (mem_childrenOf listOf).1
  obtain ⟨k, specifier_here⟩ := List.mem_iff_getElem?.1 (mem_childrenOf specifierOf).1
  exact ⟨_, ((lies.child clause_here).child list_here).child specifier_here⟩

theorem OnlyIntroduced.refers_iff (only : OnlyIntroduced source n root) (lies : Lies root way v) :
    Refers source n way v ↔ v.text source = n ∧
      (v.kind = .typeName ∧ BoundLocally way ∨ v.kind = .qualifiedName) := by
  constructor
  · intro refers
    cases refers with
    | generic kind named text => exact absurd text (only.not_base lies kind named)
    | qualified kind text => exact ⟨text, Or.inr kind⟩
    | plain kind text free =>
      exact ⟨text, Or.inl ⟨kind, (boundLocally_iff (only.introduced lies kind text)).2 free⟩⟩
    | bound kind children single text =>
      exact absurd (mem_boundName_iff.2 ⟨_, _, _, children, single, text⟩)
        (only.not_bound lies kind)
    | imported _ clauseOf listOf specifierOf _ named text =>
      obtain ⟨way', inside⟩ := lies_specifier lies clauseOf listOf specifierOf
      exact absurd (mem_localName_iff.2 ⟨_, named, text⟩)
        (only.not_imported inside (mem_childrenOf specifierOf).2)
  · rintro ⟨rfl, ⟨kind, locally⟩ | kind⟩
    · exact (refers_iff_boundLocally kind (only.introduced lies kind rfl)).2 locally
    · exact .qualified kind rfl

end Introduced

section Search

mutual

def everywhere (test : List (Tree × Nat) → Tree → Bool) (way : List (Tree × Nat)) : Tree → Bool
  | .node k x s cs =>
    test way (.node k x s cs) && everywhereFrom test way (.node k x s cs) 0 cs

def everywhereFrom (test : List (Tree × Nat) → Tree → Bool) (way : List (Tree × Nat)) (p : Tree) :
    Nat → List Tree → Bool
  | _, [] => true
  | i, c :: cs => everywhere test ((p, i) :: way) c && everywhereFrom test way p (i + 1) cs

end

variable {test : List (Tree × Nat) → Tree → Bool} {root p c v : Tree} {way : List (Tree × Nat)}

theorem everywhere_eq (way : List (Tree × Nat)) (v : Tree) :
    everywhere test way v = (test way v && everywhereFrom test way v 0 v.children) := by
  cases v
  rfl

theorem everywhere_of_everywhereFrom {cs : List Tree} {i k : Nat} (here : cs[i]? = some c)
    (all : everywhereFrom test way p k cs = true) :
    everywhere test ((p, k + i) :: way) c = true := by
  induction cs generalizing i k with
  | nil => cases here
  | cons t ts ih =>
    rw [everywhereFrom, Bool.and_eq_true] at all
    cases i with
    | zero =>
      obtain rfl := Option.some.inj here
      exact all.1
    | succ i =>
      rw [Nat.add_comm i 1, ← Nat.add_assoc]
      exact ih here all.2

theorem everywhere_of_lies (all : everywhere test [] root = true) (lies : Lies root way v) :
    everywhere test way v = true := by
  induction lies with
  | root => exact all
  | @child way p c i above here ih =>
    rw [everywhere_eq, Bool.and_eq_true] at ih
    rw [← Nat.zero_add i]
    exact everywhere_of_everywhereFrom here ih.2

theorem test_of_lies (all : everywhere test [] root = true) (lies : Lies root way v) :
    test way v = true := by
  have found := everywhere_of_lies all lies
  rw [everywhere_eq, Bool.and_eq_true] at found
  exact found.1

def introducesOnly (source : List Char) (n : String) (way : List (Tree × Nat)) (v : Tree) : Bool :=
  match v.kind with
  | .typeName => v.text source != n || way.head?.any fun (p, i) =>
      p.kind.introducesType && p.nameIndex? == some i
  | .pairPattern => !(boundName source v.children).contains n
  | .importSpecifier => !(localName source v).contains n
  | .genericType => (v.child? .name).all fun name => name.text source != n
  | _ => true

theorem onlyIntroduced_of_everywhere {source : List Char} {n : String}
    (all : everywhere (introducesOnly source n) [] root = true) : OnlyIntroduced source n root where
  introduced {way v} lies kind text := by
    have passed := test_of_lies all lies
    cases way with
    | nil => simp [introducesOnly, kind, text] at passed
    | cons above _ => simpa [introducesOnly, kind, text, Introduced] using passed
  not_bound lies kind := by simpa [introducesOnly, kind] using test_of_lies all lies
  not_imported lies kind := by simpa [introducesOnly, kind] using test_of_lies all lies
  not_base lies kind named := by simpa [introducesOnly, kind, named] using test_of_lies all lies

end Search

section Collect

variable {code : String} {tree : Tree}

/-- A type name that introduces a name refers to nothing, unless it is bound locally. A name that is
    only introduced is collected just where it is not built in and an occurrence that the collector
    visits is bound locally; or a qualified name reads the same as a whole. -/
theorem introduced_mem_collectTypes_iff (parsed : parse? (dedent code.toList) = some tree) :
    (∀ way v, Lies tree way v → v.kind = .typeName → Introduced way →
      (Refers (dedent code.toList) (v.text (dedent code.toList)) way v ↔ BoundLocally way)) ∧
    ∀ n, OnlyIntroduced (dedent code.toList) n tree →
      (n ∈ collectTypes code ↔ n ∉ builtinTypes ∧
        ∃ way v, Lies tree way v ∧ (∀ above ∈ way, above.1.isClosed = false) ∧
          v.text (dedent code.toList) = n ∧
            (v.kind = .typeName ∧ BoundLocally way ∨ v.kind = .qualifiedName)) := by
  constructor
  · intro way v _ kind introduced
    exact refers_iff_boundLocally kind introduced
  · intro n only
    rw [collectTypes_of_parse? parsed, mem_customTypes (laid_of_parse? parsed)]
    refine and_congr_right fun _ => exists_congr fun way => exists_congr fun v => ?_
    refine and_congr_right fun lies => and_congr_right fun _ => ?_
    exact only.refers_iff lies

def boxOfCell : String := "type Box<T> = \x7b [K in Side]: Cell \x7d;\n"

theorem not_mem_collectTypes_boxOfCell : ∃ tree, parse? (dedent boxOfCell.toList) = some tree ∧
    OnlyIntroduced (dedent boxOfCell.toList) "T" tree ∧
    OnlyIntroduced (dedent boxOfCell.toList) "K" tree ∧
    "T" ∉ collectTypes boxOfCell ∧
    ("K" ∈ collectTypes boxOfCell ↔ "K" ∉ builtinTypes ∧
      ∃ way v, Lies tree way v ∧ (∀ above ∈ way, above.1.isClosed = false) ∧
        v.text (dedent boxOfCell.toList) = "K" ∧
          (v.kind = .typeName ∧ BoundLocally way ∨ v.kind = .qualifiedName)) := by
  have checked : (parse? (dedent boxOfCell.toList)).map (fun tree =>
      everywhere (introducesOnly (dedent boxOfCell.toList) "T") [] tree &&
        everywhere (introducesOnly (dedent boxOfCell.toList) "K") [] tree) = some true := by
    decide +kernel
  obtain ⟨tree, parsed, passed⟩ := Option.map_eq_some_iff.1 checked
  rw [Bool.and_eq_true] at passed
  have only := onlyIntroduced_of_everywhere passed.2
  exact ⟨tree, parsed, onlyIntroduced_of_everywhere passed.1, only, by decide +kernel,
    (introduced_mem_collectTypes_iff parsed).2 "K" only⟩

/-- The key of a mapped type is collected, though nothing refers to it. -/
theorem mappedKey_collected :
    ¬ ∀ (code n : String) (tree : Tree), parse? (dedent code.toList) = some tree →
      OnlyIntroduced (dedent code.toList) n tree → n ∉ collectTypes code := by
  intro left_out
  have checked : (parse? (dedent "type A = \x7b [K in B]: C \x7d;\n".toList)).map
      (everywhere (introducesOnly (dedent "type A = \x7b [K in B]: C \x7d;\n".toList) "K") []) =
      some true := by
    decide +kernel
  obtain ⟨tree, parsed, passed⟩ := Option.map_eq_some_iff.1 checked
  exact left_out _ "K" tree parsed (onlyIntroduced_of_everywhere passed) (by decide +kernel)

end Collect

end Tree

end SourceSpecs.Syntax
