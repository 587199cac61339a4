import SourceSpecs.Proofs.PlainRun
/-!
Escapes and strings in a text that leaves nothing open. They end within the text, so what follows it
does not change them.
-/
namespace SourceSpecs.Syntax

def hexRun (n : Nat) (t : List Char) : Bool := (t.take n).length == n && (t.take n).all isHexDigit

theorem hexRun_append (n : Nat) {t : List Char} (w : List Char) (ends : t.getLast? = some '\n') :
    hexRun n (t ++ w) = hexRun n t := by
  unfold hexRun
  by_cases bound : n ≤ t.length
  · rw [List.take_append_of_le_length bound]
  · have short : ((t.take n).length == n) = false := by simp; omega
    have outside : ((t ++ w).take n).all isHexDigit = false := by
      rw [List.take_append, List.take_of_length_le (by omega), List.all_append, Bool.and_eq_false_iff]
      left
      rw [List.all_eq_false]
      exact ⟨'\n', List.mem_of_getLast? ends, by decide⟩
    rw [short, outside, Bool.and_false, Bool.false_and]

theorem takeWhile_append {p : Char → Bool} {t : List Char} (w : List Char)
    (ends : t.getLast? = some '\n') (outside : p '\n' = false) :
    (t ++ w).takeWhile p = t.takeWhile p ∧ (t.takeWhile p).length < t.length := by
  have short : (t.takeWhile p).length ≠ t.length := by
    intro whole
    have same := (List.takeWhile_prefix p).eq_of_length whole
    have := List.all_eq_true.1 (List.all_takeWhile (p := p) (l := t)) '\n'
      (by rw [same]; exact List.mem_of_getLast? ends)
    simp [outside] at this
  have := (List.takeWhile_prefix p (l := t)).length_le
  exact ⟨by rw [List.takeWhile_append, if_neg short], by omega⟩

def bracedLength (t : List Char) : Nat :=
  if 0 < (t.takeWhile isHexDigit).length && t[(t.takeWhile isHexDigit).length]? == some '\x7d' then
    (t.takeWhile isHexDigit).length + 1
  else 0

theorem bracedLength_append {t : List Char} (w : List Char) (ends : t.getLast? = some '\n') :
    bracedLength (t ++ w) = bracedLength t := by
  obtain ⟨same, bound⟩ := takeWhile_append w ends (show isHexDigit '\n' = false by decide)
  unfold bracedLength
  rw [same, List.getElem?_append_left bound]

def unicodeLength : List Char → Nat
  | '\x7b' :: t => if bracedLength t = 0 then 0 else bracedLength t + 1
  | t => if hexRun 4 t then 4 else 0

theorem unicodeLength_other {c : Char} (t : List Char) (no_brace : c ≠ '\x7b') :
    unicodeLength (c :: t) = if hexRun 4 (c :: t) then 4 else 0 := by
  unfold unicodeLength
  split <;> simp_all

theorem unicodeLength_append {t : List Char} (w : List Char) (ends : t.getLast? = some '\n') :
    unicodeLength (t ++ w) = unicodeLength t := by
  cases t with
  | nil => cases ends
  | cons c t =>
    by_cases brace : c = '\x7b'
    · subst brace
      cases t with
      | nil => exact absurd ends (by decide)
      | cons d t =>
        have ends' : (d :: t).getLast? = some '\n' := by simpa using ends
        rw [List.cons_append, unicodeLength, unicodeLength, bracedLength_append w ends']
    · rw [List.cons_append, unicodeLength_other _ brace, unicodeLength_other _ brace,
        ← List.cons_append, hexRun_append 4 w ends]

theorem escapeLength_u (t : List Char) :
    escapeLength ('\\' :: 'u' :: t) = if unicodeLength t = 0 then 0 else unicodeLength t + 2 := by
  cases t with
  | nil => rfl
  | cons c t =>
    by_cases brace : c = '\x7b'
    · subst brace
      rw [escapeLength, unicodeLength, bracedLength]
      by_cases braced : (0 < (t.takeWhile isHexDigit).length &&
          t[(t.takeWhile isHexDigit).length]? == some '\x7d') = true
      · simp only [braced, ↓reduceIte]
        simp
      · simp only [braced]
        simp
    · have other : escapeLength ('\\' :: 'u' :: c :: t) = if hexRun 4 (c :: t) then 6 else 0 := by
        rw [escapeLength.eq_def]
        split <;> simp_all [hexRun]
      rw [other, unicodeLength_other t brace]
      split <;> rfl

theorem escapeLength_of_ne {c : Char} (t : List Char) (no_escape : c ≠ '\\') :
    escapeLength (c :: t) = 0 := by
  unfold escapeLength
  split <;> simp_all

theorem escapeLength_other {c : Char} (t : List Char) (no_u : c ≠ 'u') :
    escapeLength ('\\' :: c :: t) = 0 := by
  unfold escapeLength
  split <;> simp_all

theorem escapeLength_append {t : List Char} (w : List Char) (ends : t.getLast? = some '\n') :
    escapeLength (t ++ w) = escapeLength t := by
  rcases t with _ | ⟨c, t⟩
  · cases ends
  · by_cases escape : c = '\\'
    · subst escape
      rcases t with _ | ⟨d, t⟩
      · exact absurd ends (by decide)
      · have ends' : (d :: t).getLast? = some '\n' := by simpa using ends
        by_cases u : d = 'u'
        · subst u
          cases t with
          | nil => exact absurd ends (by decide)
          | cons d t =>
            rw [List.cons_append, List.cons_append, escapeLength_u, escapeLength_u,
              unicodeLength_append w (by simpa using ends')]
        · rw [List.cons_append, List.cons_append, escapeLength_other _ u, escapeLength_other _ u]
    · rw [List.cons_append, escapeLength_of_ne _ escape, escapeLength_of_ne _ escape]

theorem escapedLength_x (t : List Char) :
    escapedLength ('x' :: t) = if hexRun 2 t then 3 else 0 := rfl

theorem escapedLength_u (t : List Char) :
    escapedLength ('u' :: t) = escapeLength ('\\' :: 'u' :: t) - 1 := rfl

theorem escapedLength_other {c d : Char} (t : List Char) (not_x : c ≠ 'x') (not_u : c ≠ 'u') :
    escapedLength (c :: d :: t) =
      if (c == '\r' || c == '?') && (d == '\n' || d == '\u2028' || d == '\u2029') then 2 else 1 := by
  rw [escapedLength.eq_def]
  split <;> simp_all

theorem escapedLength_append {t : List Char} (w : List Char) (ends : t.getLast? = some '\n') :
    escapedLength (t ++ w) = escapedLength t := by
  rcases t with _ | ⟨c, _ | ⟨d, t⟩⟩
  · cases ends
  · obtain rfl : c = '\n' := by simpa using ends
    cases w with
    | nil => rfl
    | cons d w => exact escapedLength_other w (by decide) (by decide)
  · have ends' : (d :: t).getLast? = some '\n' := by simpa using ends
    rw [List.cons_append]
    by_cases x : c = 'x'
    · subst x
      rw [escapedLength_x, escapedLength_x, hexRun_append 2 w ends']
    · by_cases u : c = 'u'
      · subst u
        have same := escapeLength_append (t := '\\' :: 'u' :: d :: t) w (by simpa using ends)
        rw [escapedLength_u, escapedLength_u]
        exact congrArg (· - 1) same
      · rw [List.cons_append, escapedLength_other _ x u, escapedLength_other _ x u]

theorem stringRest?_quote (q : Char) (length : Nat) (t : List Char) :
    stringRest? q length 0 (q :: t) = some (length + 1) := by
  simp [stringRest?]

theorem stringRest?_escape {q : Char} (length : Nat) (t : List Char) (not_quote : '\\' ≠ q) :
    stringRest? q length 0 ('\\' :: t) =
      if escapedLength t = 0 then none else stringRest? q (length + 1) (escapedLength t) t := by
  rw [stringRest?, if_neg (by simpa using not_quote), if_pos (by simp)]
  cases escapedLength t with
  | zero => rfl
  | succ n => rfl

theorem stringRest?_other {q c : Char} (length : Nat) (t : List Char) (not_quote : c ≠ q)
    (no_escape : c ≠ '\\') :
    stringRest? q length 0 (c :: t) =
      if c == '\n' || c == '\r' then none else stringRest? q (length + 1) 0 t := by
  rw [stringRest?, if_neg (by simpa using not_quote), if_neg (by simpa using no_escape)]

/-- What is found in a text ends before a reading in the given stage goes on. -/
def EndsBefore (s : Stage) (length : Nat) (t : List Char) (found : Option Nat) : Prop :=
  ∀ n, found = some n → ∃ a b, t = a ++ b ∧ n = length + a.length ∧ Held s b

theorem EndsBefore.misfit {s : Stage} {length : Nat} {t : List Char} : EndsBefore s length t none := by
  intro n e
  cases e

theorem EndsBefore.beyond {s : Stage} {length : Nat} {t : List Char} {found : Option Nat} (c : Char)
    (h : EndsBefore s (length + 1) t found) : EndsBefore s length (c :: t) found := by
  intro n e
  obtain ⟨a, b, rfl, rfl, held⟩ := h n e
  exact ⟨c :: a, b, rfl, by simp only [List.length_cons]; omega, held⟩

theorem EndsBefore.drop {s : Stage} {t : List Char} {found : Option Nat} {n : Nat}
    (h : EndsBefore s 0 t found) (e : found = some n) : n ≤ t.length ∧ Held s (t.drop n) := by
  obtain ⟨a, b, rfl, rfl, held⟩ := h n e
  rw [Nat.zero_add, List.drop_left, List.length_append]
  exact ⟨Nat.le_add_right _ _, held⟩

theorem stringRest?_append {q : Char} {o : List Opening} (length known : Nat) {t : List Char}
    (w : List Char) (apart : '\\' ≠ q) (h : Held ⟨.quoted q, known, o⟩ t) :
    stringRest? q length known (t ++ w) = stringRest? q length known t ∧
      EndsBefore ⟨.code, 0, o⟩ length t (stringRest? q length known t) := by
  induction t generalizing length known with
  | nil => exact absurd rfl h.ne_nil
  | cons c t ih =>
    have step {x : Stage} (member : x ∈ Stage.next ⟨.quoted q, known, o⟩ c t) : Held x t :=
      h.next member (Or.inr (Or.inl Mode.noConfusion))
    rw [List.cons_append]
    cases known with
    | succ known =>
      obtain ⟨same, ends⟩ := ih (length + 1) known (step (by simp [Stage.next]))
      rw [stringRest?, stringRest?]
      exact ⟨same, ends.beyond c⟩
    | zero =>
      by_cases closing : c = q
      · subst closing
        rw [stringRest?_quote, stringRest?_quote]
        refine ⟨rfl, ?_⟩
        intro n e
        exact ⟨[c], t, rfl, (Option.some.inj e).symm, step (by simp [Stage.next])⟩
      · by_cases escape : c = '\\'
        · subst escape
          rw [stringRest?_escape _ _ apart, stringRest?_escape _ _ apart]
          cases t with
          | nil => exact absurd h.ends (by decide)
          | cons d t =>
            rw [escapedLength_append w (by simpa using h.ends)]
            split
            · exact ⟨rfl, .misfit⟩
            · rename_i some_taken
              obtain ⟨same, ends⟩ := ih (length + 1) (escapedLength (d :: t))
                (step (by simp [Stage.next, Stage.afterEscape, apart, some_taken]))
              exact ⟨same, ends.beyond _⟩
        · rw [stringRest?_other _ _ closing escape, stringRest?_other _ _ closing escape]
          split
          · exact ⟨rfl, .misfit⟩
          · rename_i no_break
            have line : ¬ (c = '\n' ∨ c = '\r') := by simpa using no_break
            obtain ⟨same, ends⟩ := ih (length + 1) 0
              (step (by simp [Stage.next, closing, escape, line]))
            exact ⟨same, ends.beyond c⟩

end SourceSpecs.Syntax
