import SourceSpecs.Proofs.Layout
/-!
How deep a reading goes. No rule begins with itself before something is read, so the length of the
text bounds the depth at which every reading comes to an answer. A greater depth does not change it.
-/
namespace SourceSpecs.Syntax

section Limit

variable {limit limit' : Nat} {step step' : Cursor → Outcome} {read : List Tree} {c : Cursor}

theorem repeatUpTo_more (le : limit ≤ limit')
    (steps : ∀ c, step c ≠ .tooDeep → step' c = step c)
    (answers : repeatUpTo limit step read c ≠ .tooDeep) :
    repeatUpTo limit' step' read c = repeatUpTo limit step read c := by
  induction limit generalizing limit' read c with
  | zero => exact absurd rfl answers
  | succ limit ih =>
    obtain ⟨more, rfl⟩ : ∃ more, limit' = more + 1 := ⟨limit' - 1, by omega⟩
    rw [repeatUpTo] at answers ⊢
    rw [repeatUpTo]
    cases first : step c with
    | tooDeep =>
      rw [first] at answers
      exact absurd rfl answers
    | misfit => rw [steps c (by simp [first]), first]
    | fits nodes d =>
      rw [steps c (by simp [first]), first]
      rw [first] at answers
      simp only at answers ⊢
      split
      · rfl
      · rename_i progress
        rw [if_neg progress] at answers
        exact ih (by omega) answers

theorem repeatUpTo_answers (bound : c.rest.length < limit)
    (steps : ∀ b, b.rest.length ≤ c.rest.length → step b ≠ .tooDeep)
    (moves : ∀ b d nodes, step b = .fits nodes d → b.Reaches d) :
    repeatUpTo limit step read c ≠ .tooDeep := by
  induction limit generalizing read c with
  | zero => omega
  | succ limit ih =>
    rw [repeatUpTo]
    cases first : step c with
    | tooDeep => exact absurd first (steps c (Nat.le_refl _))
    | misfit => simp
    | fits nodes d =>
      simp only
      split
      · simp
      · rename_i progress
        have shorter : d.rest.length < c.rest.length := by
          obtain ⟨between, rest, offset⟩ := moves c d nodes first
          have : d.offset ≠ c.offset := by simpa using progress
          rw [rest, List.length_append]
          omega
        apply ih
        · omega
        · intro b le
          exact steps b (by omega)

end Limit

namespace Form

variable {ρ : Type} {limit limit' : Nat} {call call' : ρ → Ending → Cursor → Outcome}

/-- Reading with more depth comes to the same answer. -/
theorem read_more (le : limit ≤ limit')
    (calls : ∀ r e c, call r e c ≠ .tooDeep → call' r e c = call r e c) (f : Form ρ) {e : Ending}
    {c : Cursor} (answers : f.read limit call e c ≠ .tooDeep) :
    f.read limit' call' e c = f.read limit call e c := by
  induction f generalizing e c with
  | nothing => rfl
  | token k => rfl
  | glued k => rfl
  | seq f g ihf ihg =>
    rw [read] at answers ⊢
    rw [read, ihf fun deep => answers (by rw [deep])]
    cases first : f.read limit call e c with
    | tooDeep => rfl
    | misfit => rfl
    | fits nodes d =>
      rw [first] at answers
      simp only at answers ⊢
      rw [ihg fun deep => answers (by rw [deep])]
  | alt f g ihf ihg =>
    rw [read] at answers ⊢
    rw [read, ihf fun deep => answers (by rw [deep])]
    cases first : f.read limit call e c with
    | tooDeep => rfl
    | misfit =>
      rw [first] at answers
      exact ihg answers
    | fits nodes d => rfl
  | many f ih =>
    rw [read] at answers ⊢
    rw [read]
    exact repeatUpTo_more le (fun c settled => ih settled) answers
  | absent f ih =>
    rw [read] at answers ⊢
    rw [read, ih fun deep => answers (by rw [deep])]
  | rule r => exact calls r e c answers
  | node k f ih =>
    rw [read] at answers ⊢
    rw [read]
    simp only at answers ⊢
    rw [ih fun deep => answers (by rw [deep])]
  | field x f ih =>
    rw [read] at answers ⊢
    rw [read, ih fun deep => answers (by rw [deep])]
  | within e' f ih => exact ih answers
  | onward f ih =>
    rw [read] at answers ⊢
    rw [read]
    split
    · rfl
    · rename_i goes_on
      rw [if_neg goes_on] at answers
      exact ih answers
  | ended e' => rfl
  | finish => rfl

/-- The rules that the form may begin with before it has taken something in. -/
def leftmost (rules : ρ → Bool) : Form ρ → List ρ
  | seq f g => if f.eats rules then f.leftmost rules else f.leftmost rules ++ g.leftmost rules
  | alt f g => f.leftmost rules ++ g.leftmost rules
  | many f | absent f | node _ f | field _ f | within _ f | onward f => f.leftmost rules
  | rule r => [r]
  | nothing | token _ | glued _ | ended _ | finish => []

variable {rules : ρ → Bool}

section Answers

variable {f g : Form ρ} {e : Ending} {c : Cursor}

theorem seq_answers (first : f.read limit call e c ≠ .tooDeep)
    (second : ∀ nodes d, f.read limit call e c = .fits nodes d → g.read limit call e d ≠ .tooDeep) :
    (seq f g).read limit call e c ≠ .tooDeep := by
  rw [read]
  cases read_f : f.read limit call e c with
  | tooDeep => exact absurd read_f first
  | misfit => simp
  | fits nodes d =>
    simp only
    cases read_g : g.read limit call e d with
    | tooDeep => exact absurd read_g (second nodes d read_f)
    | misfit => simp
    | fits more b => simp

theorem alt_answers (first : f.read limit call e c ≠ .tooDeep)
    (second : g.read limit call e c ≠ .tooDeep) : (alt f g).read limit call e c ≠ .tooDeep := by
  rw [read]
  cases read_f : f.read limit call e c with
  | tooDeep => exact absurd read_f first
  | misfit => exact second
  | fits nodes d => simp

theorem absent_answers (inner : f.read limit call e c ≠ .tooDeep) :
    (absent f).read limit call e c ≠ .tooDeep := by
  rw [read]
  cases read_f : f.read limit call e c with
  | tooDeep => exact absurd read_f inner
  | misfit => simp
  | fits nodes d => simp

theorem node_answers {k : Kind} (inner : f.read limit call e (skipGap c).2 ≠ .tooDeep) :
    (node k f).read limit call e c ≠ .tooDeep := by
  rw [read]
  simp only
  cases read_f : f.read limit call e (skipGap c).2 with
  | tooDeep => exact absurd read_f inner
  | misfit => simp
  | fits nodes d => simp

theorem field_answers {x : Field} (inner : f.read limit call e c ≠ .tooDeep) :
    (field x f).read limit call e c ≠ .tooDeep := by
  rw [read]
  cases read_f : f.read limit call e c with
  | tooDeep => exact absurd read_f inner
  | misfit => simp
  | fits nodes d => simp

theorem onward_answers (inner : f.read limit call e c ≠ .tooDeep) :
    (onward f).read limit call e c ≠ .tooDeep := by
  rw [read]
  split
  · simp
  · exact inner

end Answers

/-- A form has an answer, if the rules have one that it begins with, and all rules further on. -/
theorem read_answers (moves : ∀ r e c nodes d, call r e c = .fits nodes d → Moves (rules r) c d)
    (f : Form ρ) {e : Ending} {c : Cursor} (bound : c.rest.length < limit)
    (first : ∀ r ∈ f.leftmost rules, ∀ e b, b.rest.length ≤ c.rest.length → call r e b ≠ .tooDeep)
    (further : ∀ r e b, b.rest.length < c.rest.length → call r e b ≠ .tooDeep) :
    f.read limit call e c ≠ .tooDeep := by
  induction f generalizing e c with
  | nothing => simp [read]
  | token k =>
    rw [read]
    simp only
    split <;> simp
  | glued k =>
    rw [read]
    split <;> simp
  | seq f g ihf ihg =>
    rw [leftmost] at first
    refine seq_answers (ihf bound (fun r member => first r ?_) further) fun nodes d read_f => ?_
    · split
      · exact member
      · exact List.mem_append_left _ member
    have moved := read_moves moves f read_f
    have le := moved.reaches.length_le
    refine ihg (by omega) (fun r member e b bound' => ?_) fun r e b shorter => further r e b (by omega)
    -- what `f` has taken in is no longer there to be read
    by_cases eats : f.eats rules = true
    · have := moved.progress eats
      obtain ⟨between, rest, offset⟩ := moved.reaches
      have := congrArg List.length rest
      rw [List.length_append] at this
      exact further r e b (by omega)
    · rw [if_neg eats] at first
      exact first r (List.mem_append_right _ member) e b (by omega)
  | alt f g ihf ihg =>
    rw [leftmost] at first
    exact alt_answers (ihf bound (fun r member => first r (List.mem_append_left _ member)) further)
      (ihg bound (fun r member => first r (List.mem_append_right _ member)) further)
  | many f ih =>
    rw [read]
    apply repeatUpTo_answers bound
    · intro b le
      exact ih (by omega) (fun r member e b' le' => first r member e b' (by omega))
        fun r e b' shorter => further r e b' (by omega)
    · intro b d nodes reads
      exact (read_moves moves f reads).reaches
  | absent f ih => exact absent_answers (ih bound first further)
  | rule r => exact first r (List.mem_singleton_self r) e c (Nat.le_refl _)
  | node k f ih =>
    have le := (skipGap_moves c).reaches.length_le
    exact node_answers (ih (by omega) (fun r member e b le' => first r member e b (by omega))
      fun r e b shorter => further r e b (by omega))
  | field x f ih => exact field_answers (ih bound first further)
  | within e' f ih => exact ih bound first further
  | onward f ih => exact onward_answers (ih bound first further)
  | ended e' =>
    rw [read]
    split <;> simp
  | finish =>
    rw [read]
    simp only
    split <;> simp

end Form

namespace Rule

def rank : Rule → Nat
  | program => 5
  | statement => 4
  | expression _ => 3
  | type | operand _ => 2
  | declaration | typeOperand | callSignature | primary | pattern => 1
  | _ => 0

theorem rank_lt (r : Rule) : r.rank < ruleCount := by
  cases r <;> simp [rank, ruleCount]

theorem rank_lt_of_leftmost {r r' : Rule} (member : r' ∈ r.form.leftmost eats) : r'.rank < r.rank := by
  have checked : (all.all fun r => (r.form.leftmost eats).all fun r' => r'.rank < r.rank) = true := by
    decide +kernel
  have here := List.all_eq_true.1 (List.all_eq_true.1 checked r (mem_all r)) r' member
  simpa using here

end Rule

section Rules

variable {limit limit' depth depth' : Nat} {r : Rule} {e : Ending} {c : Cursor}

theorem readRule_more (le : limit ≤ limit') (deeper : depth ≤ depth')
    (answers : readRule Rule.form limit depth r e c ≠ .tooDeep) :
    readRule Rule.form limit' depth' r e c = readRule Rule.form limit depth r e c := by
  induction depth generalizing depth' r e c with
  | zero => exact absurd rfl answers
  | succ depth ih =>
    obtain ⟨more, rfl⟩ : ∃ more, depth' = more + 1 := ⟨depth' - 1, by omega⟩
    rw [readRule] at answers ⊢
    rw [readRule]
    exact Form.read_more le (fun r e c inner => ih (by omega) inner) r.form answers

/-- No rule runs out of depth that is given the depth its rank and the length of the text call for. -/
theorem readRule_answers (bound : c.rest.length < limit)
    (deep : c.rest.length * ruleCount + r.rank < depth) :
    readRule Rule.form limit depth r e c ≠ .tooDeep := by
  induction depth generalizing r e c with
  | zero => omega
  | succ depth ih =>
    rw [readRule]
    apply Form.read_answers (fun r e c nodes d inner => readRule_moves inner) r.form bound
    · intro r' member e b le
      have := Rule.rank_lt_of_leftmost member
      have := Nat.mul_le_mul_right ruleCount le
      exact ih (by omega) (by omega)
    · intro r' e b shorter
      have := r'.rank_lt
      have : (b.rest.length + 1) * ruleCount ≤ c.rest.length * ruleCount :=
        Nat.mul_le_mul_right ruleCount shorter
      rw [Nat.add_mul, Nat.one_mul] at this
      exact ih (by omega) (by omega)

end Rules

end SourceSpecs.Syntax
