import SourceSpecs.Proofs.Depth
/-!
What a form reads, whatever the depth: each form by what its parts read. A text is well formed, if a
whole program is read in it.
-/
namespace SourceSpecs.Syntax

def Outcome.of : Option (List Tree × Cursor) → Outcome
  | none => .misfit
  | some (nodes, d) => .fits nodes d

theorem Outcome.of_inj {a b : Option (List Tree × Cursor)} (h : Outcome.of a = Outcome.of b) : a = b := by
  cases a <;> cases b <;> simp_all [of]
  exact Prod.ext h.1 h.2

/-- Reads rules in a text of the given length, as deep as they go. -/
def ruleWithin (n : Nat) : Rule → Ending → Cursor → Outcome :=
  readRule Rule.form (n + 1) ((n + 1) * (ruleCount + 1))

theorem repeatUpTo_after {limit : Nat} {step : Cursor → Outcome} {read : List Tree} {c : Cursor} :
    repeatUpTo limit step read c =
      match repeatUpTo limit step [] c with
      | .fits nodes d => .fits (read.reverse ++ nodes) d
      | o => o := by
  induction limit generalizing read c with
  | zero => rfl
  | succ limit ih =>
    rw [repeatUpTo, repeatUpTo]
    cases step c with
    | tooDeep => rfl
    | misfit => simp
    | fits nodes d =>
      simp only
      split
      · simp
      · rw [ih, List.append_nil]
        symm
        rw [ih]
        cases repeatUpTo limit step [] d <;> simp

/-- What a form reads at a cursor, if it fits. -/
def Form.reads? (f : Form Rule) (e : Ending) (c : Cursor) : Option (List Tree × Cursor) :=
  match f.read (c.rest.length + 1) (ruleWithin c.rest.length) e c with
  | .fits nodes d => .some (nodes, d)
  | _ => none

section Reads

variable {f g : Form Rule} {r : Rule} {e : Ending} {c d : Cursor} {n : Nat} {nodes : List Tree}

theorem ruleWithin_answers (bound : c.rest.length ≤ n) : ruleWithin n r e c ≠ .tooDeep := by
  apply readRule_answers
  · omega
  · have := r.rank_lt
    have : c.rest.length * ruleCount ≤ n * ruleCount := Nat.mul_le_mul_right ruleCount bound
    rw [Nat.mul_add, Nat.add_mul]
    omega

theorem read_ruleWithin_answers (bound : c.rest.length ≤ n) :
    f.read (n + 1) (ruleWithin n) e c ≠ .tooDeep := by
  apply Form.read_answers (fun r e c nodes d inner => readRule_moves inner)
  · omega
  · intro r _ e b le
    exact ruleWithin_answers (by omega)
  · intro r e b shorter
    exact ruleWithin_answers (by omega)

/-- A reading comes to the same answer wherever there is depth enough. -/
theorem read_eq (bound : c.rest.length ≤ n) :
    f.read (n + 1) (ruleWithin n) e c = .of (f.reads? e c) := by
  have here : f.read (c.rest.length + 1) (ruleWithin c.rest.length) e c ≠ .tooDeep :=
    read_ruleWithin_answers (Nat.le_refl _)
  have same : f.read (n + 1) (ruleWithin n) e c =
      f.read (c.rest.length + 1) (ruleWithin c.rest.length) e c := by
    apply Form.read_more
    · omega
    · intro r e b answers
      apply readRule_more
      · omega
      · exact Nat.mul_le_mul_right _ (by omega)
      · exact answers
    · exact here
  rw [same, Form.reads?]
  cases outcome : f.read (c.rest.length + 1) (ruleWithin c.rest.length) e c with
  | tooDeep => exact absurd outcome here
  | misfit => rfl
  | fits nodes d => rfl

theorem reads?_eq_of_read {a : Option (List Tree × Cursor)}
    (h : f.read (c.rest.length + 1) (ruleWithin c.rest.length) e c = .of a) : f.reads? e c = a :=
  Outcome.of_inj ((read_eq (Nat.le_refl _)).symm.trans h)

theorem reaches_of_reads? (h : f.reads? e c = some (nodes, d)) : c.Reaches d := by
  have read := read_eq (f := f) (e := e) (Nat.le_refl c.rest.length)
  rw [h] at read
  exact (Form.read_moves (fun r e c nodes d inner => readRule_moves inner) f read).reaches

@[simp] theorem reads?_nothing : Form.nothing.reads? e c = some ([], c) := rfl

theorem reads?_token {k : Token} :
    (Form.token k).reads? e c = (k.read (skipGap c).2).map fun x => ((skipGap c).1 ++ [x.1], x.2) := by
  apply reads?_eq_of_read
  rw [Form.read]
  simp only
  cases k.read (skipGap c).2 <;> rfl

theorem reads?_glued {k : Token} : (Form.glued k).reads? e c = (k.read c).map fun x => ([x.1], x.2) := by
  apply reads?_eq_of_read
  rw [Form.read]
  cases k.read c <;> rfl

theorem reads?_seq : (Form.seq f g).reads? e c =
    (f.reads? e c).bind fun x => (g.reads? e x.2).map fun y => (x.1 ++ y.1, y.2) := by
  apply reads?_eq_of_read
  rw [Form.read, read_eq (Nat.le_refl _)]
  cases first : f.reads? e c with
  | none => rfl
  | some x =>
    have le := (reaches_of_reads? first).length_le
    simp only [Outcome.of, read_eq le, Option.bind_some]
    cases g.reads? e x.2 <;> rfl

theorem reads?_alt : (Form.alt f g).reads? e c = (f.reads? e c).or (g.reads? e c) := by
  apply reads?_eq_of_read
  rw [Form.read, read_eq (Nat.le_refl _), read_eq (Nat.le_refl _)]
  cases f.reads? e c <;> rfl

theorem reads?_absent : (Form.absent f).reads? e c = if (f.reads? e c).isSome then none else some ([], c) := by
  apply reads?_eq_of_read
  rw [Form.read, read_eq (Nat.le_refl _)]
  cases f.reads? e c <;> rfl

theorem reads?_rule : (Form.rule r).reads? e c = r.form.reads? e c := by
  apply reads?_eq_of_read
  have answers : ruleWithin c.rest.length r e c ≠ .tooDeep := ruleWithin_answers (Nat.le_refl _)
  obtain ⟨depth, deeper⟩ : ∃ depth, (c.rest.length + 1) * (ruleCount + 1) = depth + 1 :=
    ⟨(c.rest.length + 1) * (ruleCount + 1) - 1, by unfold ruleCount; omega⟩
  rw [Form.read_rule, ← read_eq (Nat.le_refl _)]
  rw [ruleWithin, deeper, readRule] at answers ⊢
  symm
  apply Form.read_more (Nat.le_refl _) _ _ answers
  intro r' e' b inner
  exact readRule_more (Nat.le_refl _) (Nat.le_succ _) inner

theorem reads?_node {k : Kind} : (Form.node k f).reads? e c =
    (f.reads? e (skipGap c).2).map fun x =>
      ((skipGap c).1 ++ [.node k none ⟨(skipGap c).2.offset, x.2.offset⟩ x.1], x.2) := by
  apply reads?_eq_of_read
  have le := (skipGap_moves c).reaches.length_le
  rw [Form.read]
  simp only
  rw [read_eq le]
  cases f.reads? e (skipGap c).2 <;> rfl

theorem reads?_field {x : Field} :
    (Form.field x f).reads? e c = (f.reads? e c).map fun y => (markLast x y.1, y.2) := by
  apply reads?_eq_of_read
  rw [Form.read, read_eq (Nat.le_refl _)]
  cases f.reads? e c <;> rfl

@[simp] theorem reads?_within {e' : Ending} : (Form.within e f).reads? e' c = f.reads? e c := rfl

theorem reads?_onward :
    (Form.onward f).reads? e c = if e.endsAt c then none else f.reads? e c := by
  apply reads?_eq_of_read
  rw [Form.read, read_eq (Nat.le_refl _)]
  split <;> rfl

theorem reads?_ended {e' : Ending} :
    (Form.ended e).reads? e' c = if e.endsAt c then some ([], c) else none := by
  apply reads?_eq_of_read
  rw [Form.read]
  split <;> rfl

theorem reads?_finish :
    Form.finish.reads? e c = if (skipGap c).2.rest = [] then some (skipGap c) else none := by
  apply reads?_eq_of_read
  rw [Form.read]
  simp only
  cases (skipGap c).2.rest <;> rfl

theorem reads?_many : (Form.many f).reads? e c =
    match f.reads? e c with
    | none => some ([], c)
    | some x =>
      if x.2.offset = c.offset then some ([], c)
      else ((Form.many f).reads? e x.2).map fun y => (x.1 ++ y.1, y.2) := by
  apply reads?_eq_of_read
  rw [Form.read, repeatUpTo, read_eq (Nat.le_refl _)]
  cases first : f.reads? e c with
  | none => rfl
  | some x =>
    obtain ⟨nodes, d⟩ := x
    simp only [Outcome.of]
    by_cases same : d.offset = c.offset
    · simp [same]
    · rw [if_neg (by simpa using same), if_neg same]
      obtain ⟨between, rest, offset⟩ := reaches_of_reads? first
      have shorter : d.rest.length < c.rest.length := by
        rw [rest, List.length_append]
        omega
      have further : repeatUpTo c.rest.length (f.read (c.rest.length + 1) (ruleWithin c.rest.length) e)
          [] d = .of ((Form.many f).reads? e d) := by
        rw [← read_eq (Nat.le_of_lt shorter), Form.read]
        symm
        apply repeatUpTo_more (Nat.le_succ _) (fun c _ => rfl)
        apply repeatUpTo_answers shorter
        · intro b le
          exact read_ruleWithin_answers (by omega)
        · intro b d nodes reads
          exact (Form.read_moves (fun r e c nodes d inner => readRule_moves inner) f reads).reaches
      rw [repeatUpTo_after, List.append_nil, further]
      cases (Form.many f).reads? e d <;> simp [Outcome.of]

end Reads

theorem parse?_eq_reads? (t : List Char) :
    parse? t = (Rule.program.form.reads? .never (Cursor.ofText t)).map fun x =>
      .node .program none ⟨0, x.2.offset⟩ x.1 := by
  have read : readRule Rule.form (t.length + 1) (depthFor t) .program .never (Cursor.ofText t) =
      .of (Rule.program.form.reads? .never (Cursor.ofText t)) := by
    rw [← reads?_rule, ← read_eq (n := t.length) (Nat.le_refl t.length)]
    rfl
  rw [parse?, read]
  cases Rule.program.form.reads? .never (Cursor.ofText t) <;> rfl

end SourceSpecs.Syntax
