import SourceSpecs.Syntax.Form
/-!
What a reading that fits has gone through. A repetition is told without its limit, by the rounds it
goes through before it comes to rest.
-/
namespace SourceSpecs.Syntax

/-- Readings one after another, each of which takes something in. -/
inductive Rounds (step : Cursor → Outcome) : Nat → Cursor → List Tree → Cursor → Prop where
  | done (c : Cursor) : Rounds step 0 c [] c
  | round {n : Nat} {c d e : Cursor} {nodes more : List Tree} (reads : step c = .fits nodes d)
      (progress : d.offset ≠ c.offset) (rest : Rounds step n d more e) :
      Rounds step (n + 1) c (nodes ++ more) e

def Rests (step : Cursor → Outcome) (c : Cursor) : Prop :=
  step c = .misfit ∨ ∃ nodes d, step c = .fits nodes d ∧ d.offset = c.offset

variable {step : Cursor → Outcome} {n m : Nat} {c d : Cursor} {nodes read : List Tree}

theorem Rounds.append {e : Cursor} {more : List Tree} (h : Rounds step n c nodes d)
    (k : Rounds step m d more e) : Rounds step (n + m) c (nodes ++ more) e := by
  induction h with
  | done c => simpa using k
  | round reads progress _ ih =>
    rw [List.append_assoc, Nat.add_right_comm]
    exact .round reads progress (ih k)

theorem rounds_of_repeatUpTo (h : repeatUpTo n step read c = .fits nodes d) :
    ∃ m more, m < n ∧ nodes = read.reverse ++ more ∧ Rounds step m c more d ∧ Rests step d := by
  induction n generalizing read c with
  | zero => cases h
  | succ n ih =>
    rw [repeatUpTo] at h
    cases first : step c with
    | tooDeep =>
      rw [first] at h
      cases h
    | misfit =>
      rw [first] at h
      cases h
      exact ⟨0, [], by omega, by simp, .done _, Or.inl first⟩
    | fits new b =>
      rw [first] at h
      simp only at h
      split at h
      · rename_i same
        cases h
        exact ⟨0, [], by omega, by simp, .done _, Or.inr ⟨new, b, first, by simpa using same⟩⟩
      · rename_i progress
        obtain ⟨m, more, bound, rfl, rounds, rests⟩ := ih h
        exact ⟨m + 1, new ++ more, by omega, by simp, .round first (by simpa using progress) rounds,
          rests⟩

theorem repeatUpTo_of_rounds (h : Rounds step m c nodes d) (bound : m < n) (rests : Rests step d) :
    repeatUpTo n step read c = .fits (read.reverse ++ nodes) d := by
  induction h generalizing n read with
  | done c =>
    obtain ⟨k, rfl⟩ : ∃ k, n = k + 1 := ⟨n - 1, by omega⟩
    rw [repeatUpTo, List.append_nil]
    rcases rests with no | ⟨new, b, yes, same⟩
    · rw [no]
    · rw [yes]
      simp [same]
  | round reads progress _ ih =>
    obtain ⟨k, rfl⟩ : ∃ k, n = k + 1 := ⟨n - 1, by omega⟩
    rw [repeatUpTo, reads]
    simp only
    rw [if_neg (by simpa using progress), ih (by omega) rests]
    simp

namespace Form

variable {ρ : Type} {limit : Nat} {call : ρ → Ending → Cursor → Outcome} {f g : Form ρ} {k : Token}
  {e e' : Ending}

/-! What a form has read that fits, by the way the form is built. -/

theorem of_read_token (h : (token k : Form ρ).read limit call e c = .fits nodes d) :
    ∃ t, k.read (skipGap c).2 = Option.some (t, d) ∧ nodes = (skipGap c).1 ++ [t] := by
  rw [Form.read] at h
  cases found : k.read (skipGap c).2 with
  | none =>
    simp only [found] at h
    cases h
  | some r =>
    simp only [found] at h
    cases h
    exact ⟨r.1, rfl, rfl⟩

theorem of_read_glued (h : (glued k : Form ρ).read limit call e c = .fits nodes d) :
    ∃ t, k.read c = Option.some (t, d) ∧ nodes = [t] := by
  rw [Form.read] at h
  cases found : k.read c with
  | none =>
    simp only [found] at h
    cases h
  | some r =>
    simp only [found] at h
    cases h
    exact ⟨r.1, rfl, rfl⟩

theorem of_read_seq (h : (seq f g).read limit call e c = .fits nodes d) :
    ∃ front m back, f.read limit call e c = .fits front m ∧ g.read limit call e m = .fits back d ∧
      nodes = front ++ back := by
  rw [Form.read] at h
  split at h
  · rename_i front m read_f
    split at h
    · rename_i back b read_g
      cases h
      exact ⟨front, m, back, read_f, read_g, rfl⟩
    · rename_i other
      exact absurd h (other _ _)
  · rename_i other
    exact absurd h (other _ _)

theorem of_read_alt (h : (alt f g).read limit call e c = .fits nodes d) :
    f.read limit call e c = .fits nodes d ∨
      f.read limit call e c = .misfit ∧ g.read limit call e c = .fits nodes d := by
  rw [Form.read] at h
  split at h
  · rename_i no
    exact Or.inr ⟨no, h⟩
  · exact Or.inl h

/-- A repetition that fits has gone through rounds of what it repeats. -/
theorem rounds_of_read_many (h : (many f).read limit call e c = .fits nodes d) :
    ∃ m, Rounds (f.read limit call e) m c nodes d := by
  rw [Form.read] at h
  obtain ⟨m, more, _, rfl, rounds, _⟩ := rounds_of_repeatUpTo h
  exact ⟨m, rounds⟩

theorem of_read_absent (h : (absent f).read limit call e c = .fits nodes d) :
    f.read limit call e c = .misfit ∧ nodes = [] ∧ d = c := by
  rw [Form.read] at h
  split at h
  · cases h
  · rename_i no
    cases h
    exact ⟨no, rfl, rfl⟩
  · cases h

theorem of_read_node {k : Kind} (h : (node k f).read limit call e c = .fits nodes d) :
    ∃ cs, f.read limit call e (skipGap c).2 = .fits cs d ∧
      nodes = (skipGap c).1 ++ [.node k none ⟨(skipGap c).2.offset, d.offset⟩ cs] := by
  rw [Form.read] at h
  simp only at h
  split at h
  · rename_i cs b read_f
    cases h
    exact ⟨cs, read_f, rfl⟩
  · rename_i other
    exact absurd h (other _ _)

theorem of_read_field {x : Field} (h : (field x f).read limit call e c = .fits nodes d) :
    ∃ inner, f.read limit call e c = .fits inner d ∧ nodes = markLast x inner := by
  rw [Form.read] at h
  split at h
  · rename_i inner b read_f
    cases h
    exact ⟨inner, read_f, rfl⟩
  · rename_i other
    exact absurd h (other _ _)

theorem of_read_onward (h : (onward f).read limit call e c = .fits nodes d) :
    e.endsAt c = false ∧ f.read limit call e c = .fits nodes d := by
  rw [Form.read] at h
  split at h
  · cases h
  · rename_i goes_on
    exact ⟨Bool.eq_false_iff.2 goes_on, h⟩

theorem of_read_ended (h : (ended e : Form ρ).read limit call e' c = .fits nodes d) :
    e.endsAt c = true ∧ nodes = [] ∧ d = c := by
  rw [Form.read] at h
  split at h
  · rename_i ends
    cases h
    exact ⟨ends, rfl, rfl⟩
  · cases h

theorem of_read_finish (h : (finish : Form ρ).read limit call e c = .fits nodes d) :
    (skipGap c).2.rest = [] ∧ nodes = (skipGap c).1 ∧ d = (skipGap c).2 := by
  rw [Form.read] at h
  simp only at h
  split at h
  · rename_i empty
    cases h
    exact ⟨empty, rfl, rfl⟩
  · cases h

end Form

end SourceSpecs.Syntax
