import SourceSpecs.Proofs.EmbeddedForm
import SourceSpecs.Syntax.Grammar
/-!
Where the rules of the grammar lead. Only a statement, and what a statement may begin with, can be
read from an export on, and only some of the rules may end in a text's last brace.
-/
namespace SourceSpecs.Syntax

namespace Rule

def noExport : Rule → Bool
  | .block | .typeArguments | .typeParameters | .objectType | .typing | .returnTyping
  | .callSignature | .parameters | .access | .arguments | .parenthesized | .template
  | .objectPattern | .arrayPattern | .classBody | .decorator => true
  | _ => false

def endsInBrace : Rule → Bool
  | .statement | .block | .declaration | .type | .typeOperand | .objectType | .typing
  | .returnTyping | .callSignature | .expression _ | .operand _ | .primary | .pattern
  | .objectPattern | .classBody => true
  | _ => false

def placesInside (r : Rule) : List Place :=
  if r.endsInBrace then [.inside, .border] else [.inside]

def places (r : Rule) (p : Place) : Option (List Place) :=
  if r = .program then none
  else match p with
    | .inside => some r.placesInside
    | .template => none
    | .start => some (if r.noExport then [] else r.placesInside)
    | .border => if r.noExport then some [] else none
    | .beyond last => if last || r.noExport then some [] else none

def keeps (r : Rule) (p : Place) : Bool :=
  match r.places p with
  | none => true
  | some ps =>
    match passage places r.form [] p with
    | none => false
    | some outs => outs.all fun x => x.1 == [] && ps.contains x.2

/-- Every rule leads where it is said to lead. This runs through the forms of the grammar. -/
theorem keeps_all (r : Rule) (p : Place) : r.keeps p = true := by
  have checked : (all.all fun r => Place.all.all fun p => r.keeps p) = true := by decide +kernel
  exact List.all_eq_true.1 (List.all_eq_true.1 checked r (mem_all r)) p (Place.mem_all p)

end Rule

namespace Setting

variable {s : Setting} {limit limit' : Nat} {around l : List Opening} {outs : Leads} {c c' : Cursor}

theorem stands_nil_iff {p : Place} :
    s.Stands (l ++ around) ([], p) c c' ↔ s.Stands around (l, p) c c' := by
  cases p <;> simp [Stands, At]

/-- Reading a rule in the text alone and in the whole comes to the same. -/
theorem readRule_agree (le : limit ≤ limit') {depth depth' : Nat} (deep : depth ≤ depth') {r : Rule}
    {e : Ending} {p : Place} (leads : ruleLeads Rule.places r l p = some outs)
    (stands : s.Stands around (l, p) c c') :
    s.Agree around outs (readRule Rule.form limit depth r e c)
      (readRule Rule.form limit' depth' r e c') := by
  induction depth generalizing depth' around l outs c c' r e p with
  | zero => trivial
  | succ depth ih =>
    obtain ⟨m, rfl⟩ : ∃ m, depth' = m + 1 := ⟨depth' - 1, by omega⟩
    obtain ⟨qs, places, rfl⟩ := Option.map_eq_some_iff.1 leads
    have keeps := r.keeps_all p
    rw [Rule.keeps, places] at keeps
    simp only at keeps
    split at keeps
    · cases keeps
    · rename_i found passes
      have inner : ∀ r e around l p outs c c', ruleLeads Rule.places r l p = some outs →
          s.Stands around (l, p) c c' → s.Agree around outs
            (readRule Rule.form limit depth r e c) (readRule Rule.form limit' m r e c') := by
        intro r e around l p outs c c' leads stands
        exact ih (by omega) leads stands
      have agree := read_agree le inner r.form (e := e) passes (stands_nil_iff.2 stands)
      rw [readRule, readRule]
      rcases agree.cases with deep | ⟨no, no'⟩ |
        ⟨nodes, d, nodes', d', yes, yes', echo, ⟨l', q⟩, member, there⟩
      · rw [deep]
        trivial
      · rw [no, no']
        trivial
      · rw [yes, yes']
        have kept := List.all_eq_true.1 keeps _ member
        simp only [Bool.and_eq_true, beq_iff_eq, List.contains_iff_mem] at kept
        obtain ⟨rfl, place⟩ := kept
        refine ⟨echo, (l, q), ?_, stands_nil_iff.1 there⟩
        refine List.mem_map.2 ⟨q, List.mem_filter.2 ⟨place, ?_⟩, rfl⟩
        cases q with
        | border =>
          have closed : [] ++ (l ++ around) = [] := there.1.1
          rw [List.nil_append, List.append_eq_nil_iff] at closed
          simp [closed.1]
        | _ => simp

end Setting

end SourceSpecs.Syntax
