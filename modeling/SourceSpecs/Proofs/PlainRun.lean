import SourceSpecs.Proofs.GapReading
/-!
Numbers are runs of plain characters within a line. How long such a run is does not depend on what
follows the line.
-/
namespace SourceSpecs.Syntax

def isInline (c : Char) : Bool := isPlain c && c != '\n'

/-- The first `n` characters of the text are plain and stand in one line. -/
def PlainRun (n : Nat) (t : List Char) : Prop := n ≤ t.length ∧ ∀ x ∈ t.take n, isInline x = true

theorem isPlain_of_isInline {c : Char} (h : isInline c = true) : isPlain c = true := by
  rw [isInline, Bool.and_eq_true] at h
  exact h.1

theorem isInline_of_apart {p : Char → Bool} {c : Char} (h : p c = true)
    (apart : ('\n' :: notPlain).all (fun d => !p d) = true) : isInline c = true := by
  rw [List.all_cons, Bool.and_eq_true] at apart
  rw [isInline, Bool.and_eq_true, bne_iff_ne]
  refine ⟨isPlain_of_apart h apart.2, ?_⟩
  rintro rfl
  simp [h] at apart

theorem isInline_of_isNamePart {c : Char} (h : isNamePart c = true) : isInline c = true :=
  isInline_of_apart h (by decide)

namespace PlainRun

variable {n m : Nat} {t : List Char}

theorem zero : PlainRun 0 t := ⟨Nat.zero_le _, by simp⟩

theorem cons {c : Char} (plain : isInline c = true) (h : PlainRun n t) :
    PlainRun (n + 1) (c :: t) := by
  refine ⟨Nat.succ_le_succ h.1, ?_⟩
  intro x member
  rw [List.take_succ_cons] at member
  rcases List.mem_cons.1 member with rfl | member
  · exact plain
  · exact h.2 x member

theorem add (h : PlainRun n t) (k : PlainRun m (t.drop n)) : PlainRun (n + m) t := by
  have bound := k.1
  rw [List.length_drop] at bound
  refine ⟨by have := h.1; omega, ?_⟩
  intro x member
  rw [List.take_add] at member
  rcases List.mem_append.1 member with member | member
  · exact h.2 x member
  · exact k.2 x member

theorem getLast?_drop (h : PlainRun n t) (ends : t.getLast? = some '\n') :
    (t.drop n).getLast? = some '\n' := by
  rw [List.getLast?_drop, if_neg, ends]
  intro whole
  have member : '\n' ∈ t.take n := by
    rw [List.take_of_length_le whole]
    exact List.mem_of_getLast? ends
  exact absurd (h.2 '\n' member) (by decide)

theorem held {o : List Opening} (run : PlainRun n t) (h : Held ⟨.code, 0, o⟩ t) :
    Held ⟨.code, 0, o⟩ (t.drop n) := by
  refine Held.plain_append (a := t.take n) ?_ (by rwa [List.take_append_drop])
  intro x member
  exact isPlain_of_isInline (run.2 x member)

end PlainRun

/-- A length that is that of a plain run, whatever follows the line. -/
structure Inline (length : List Char → Nat) : Prop where
  run (t : List Char) : PlainRun (length t) t
  append (t w : List Char) (ends : t.getLast? = some '\n') : length (t ++ w) = length t

theorem digitsLength_of_not {p : Char → Bool} {c : Char} (t : List Char) (outside : ¬ p c = true) :
    digitsLength p (c :: t) = 0 := by
  unfold digitsLength
  split <;> grind

theorem inline_digitsLength {p : Char → Bool} (apart : ('\n' :: notPlain).all (fun d => !p d) = true) :
    Inline (digitsLength p) where
  run t := by
    fun_induction digitsLength p t with
    | case1 => exact PlainRun.zero
    | case2 c digit => exact PlainRun.zero.cons (isInline_of_apart digit apart)
    | case3 => exact PlainRun.zero
    | case4 c d t digit next ih =>
      exact (ih.cons (c := '_') (by decide)).cons (isInline_of_apart digit apart)
    | case5 c d t digit last => exact PlainRun.zero.cons (isInline_of_apart digit apart)
    | case6 => exact PlainRun.zero
    | case7 c t _ _ digit ih => exact ih.cons (isInline_of_apart digit apart)
    | case8 => exact PlainRun.zero
  append t w ends := by
    fun_induction digitsLength p t with
    | case1 => cases ends
    | case2 c digit =>
      obtain rfl : c = '\n' := by simpa using ends
      have outside := List.all_eq_true.1 apart '\n' (by decide)
      simp [digit] at outside
    | case3 c outside => exact digitsLength_of_not w outside
    | case4 c d t digit next ih =>
      have further := ih (by simpa using ends)
      simp only [List.cons_append] at further ⊢
      rw [digitsLength.eq_3, if_pos digit, if_pos next, further]
    | case5 c d t digit last =>
      rw [List.cons_append, List.cons_append, List.cons_append, digitsLength.eq_3, if_pos digit,
        if_neg last]
    | case6 c d t outside => exact digitsLength_of_not _ outside
    | case7 c t nonempty single digit ih =>
      obtain ⟨d, t, rfl⟩ := List.exists_cons_of_ne_nil nonempty
      have ends_t : (d :: t).getLast? = some '\n' := by simpa using ends
      have single' : ∀ e u, (d :: t) ++ w = '_' :: e :: u → False := by
        intro e u same
        obtain ⟨rfl, rest⟩ := List.cons.inj same
        cases t with
        | nil => exact absurd ends_t (by simp)
        | cons e' t => exact single e' t rfl
      rw [List.cons_append, digitsLength.eq_4 p c ((d :: t) ++ w) (by simp) single', if_pos digit,
        ih ends_t]
    | case8 c t _ _ outside => exact digitsLength_of_not _ outside

def signLength : List Char → Nat
  | '+' :: _ | '-' :: _ => 1
  | _ => 0

theorem inline_signLength : Inline signLength where
  run t := by
    unfold signLength
    split
    · exact PlainRun.zero.cons (by decide)
    · exact PlainRun.zero.cons (by decide)
    · exact PlainRun.zero
  append t w ends := by
    cases t with
    | nil => cases ends
    | cons c t =>
      unfold signLength
      split <;> simp_all

theorem exponentLength_cons (e : Char) (t : List Char) :
    exponentLength (e :: t) =
      if e == 'e' || e == 'E' then
        if digitsLength Char.isDigit (t.drop (signLength t)) = 0 then 0
        else digitsLength Char.isDigit (t.drop (signLength t)) + signLength t + 1
      else 0 := by
  unfold exponentLength
  by_cases letter : (e == 'e' || e == 'E') = true
  · simp only [letter, ↓reduceIte]
    split
    · rename_i none_read
      exact (if_pos none_read).symm
    · rename_i some_read
      exact (if_neg some_read).symm
  · simp only [letter]
    rfl

theorem inline_decimalDigits : Inline (digitsLength Char.isDigit) := inline_digitsLength (by decide)

theorem Inline.drop {first second : List Char → Nat} (h : Inline first) (k : Inline second)
    {t : List Char} (w : List Char) (ends : t.getLast? = some '\n') :
    second ((t ++ w).drop (first (t ++ w))) = second (t.drop (first t)) := by
  rw [h.append t w ends, List.drop_append_of_le_length (h.run t).1]
  exact k.append _ w ((h.run t).getLast?_drop ends)

theorem inline_exponentLength : Inline exponentLength where
  run t := by
    cases t with
    | nil => exact PlainRun.zero
    | cons e t =>
      rw [exponentLength_cons]
      split
      · rename_i letter
        split
        · exact PlainRun.zero
        · rw [Nat.add_comm (digitsLength _ _)]
          have plain : isInline e = true := by
            rcases Bool.or_eq_true _ _ ▸ letter with h | h
            · rw [eq_of_beq h]; decide
            · rw [eq_of_beq h]; decide
          exact ((inline_signLength.run t).add (inline_decimalDigits.run _)).cons plain
      · exact PlainRun.zero
  append t w ends := by
    cases t with
    | nil => cases ends
    | cons e t =>
      rw [List.cons_append, exponentLength_cons, exponentLength_cons]
      cases t with
      | nil =>
        obtain rfl : e = '\n' := by simpa using ends
        rfl
      | cons d t =>
        have ends_t : (d :: t).getLast? = some '\n' := by simpa using ends
        rw [inline_signLength.drop inline_decimalDigits w ends_t,
          inline_signLength.append _ w ends_t]

theorem Inline.add {first second : List Char → Nat} (h : Inline first) (k : Inline second) :
    Inline fun t => first t + second (t.drop (first t)) where
  run t := (h.run t).add (k.run _)
  append t w ends := by
    rw [h.drop k w ends, h.append t w ends]

def radixDigits (r : Char) (digits : List Char) : Nat :=
  if r == 'x' || r == 'X' then digitsLength isHexDigit digits
  else if r == 'o' || r == 'O' then digitsLength (fun c => '0' ≤ c && c ≤ '7') digits
  else if r == 'b' || r == 'B' then digitsLength (fun c => c == '0' || c == '1') digits
  else 0

theorem inline_radixDigits (r : Char) : Inline (radixDigits r) where
  run t := by
    unfold radixDigits
    split
    · exact (inline_digitsLength (by decide)).run t
    · split
      · exact (inline_digitsLength (by decide)).run t
      · split
        · exact (inline_digitsLength (by decide)).run t
        · exact PlainRun.zero
  append t w ends := by
    unfold radixDigits
    rw [(inline_digitsLength (by decide)).append t w ends,
      (inline_digitsLength (by decide)).append t w ends,
      (inline_digitsLength (by decide)).append t w ends]

theorem isInline_of_radixDigits {r : Char} {digits : List Char} (some_digit : radixDigits r digits ≠ 0) :
    isInline r = true := by
  have marks : "xXoObB".toList.contains r = true := by
    unfold radixDigits at some_digit
    simp only [String.reduceToList]
    grind
  exact isInline_of_apart marks (by decide)

theorem radixLength_cons (r : Char) (digits : List Char) :
    radixLength ('0' :: r :: digits) =
      if radixDigits r digits == 0 then 0
      else if digits[radixDigits r digits]? == some 'n' then radixDigits r digits + 3
      else radixDigits r digits + 2 := rfl

theorem radixLength_of_ne {c : Char} (t : List Char) (not_zero : c ≠ '0') :
    radixLength (c :: t) = 0 := by
  unfold radixLength
  split <;> simp_all

theorem inline_radixLength : Inline radixLength where
  run t := by
    rcases t with _ | ⟨z, _ | ⟨r, digits⟩⟩
    · exact PlainRun.zero
    · rw [show radixLength [z] = 0 by unfold radixLength; split <;> simp_all]
      exact PlainRun.zero
    · by_cases zero : z = '0'
      · subst zero
        rw [radixLength_cons]
        have run := (inline_radixDigits r).run digits
        split
        · exact PlainRun.zero
        · rename_i some_digit
          have plain : isInline r = true := isInline_of_radixDigits (by simpa using some_digit)
          split
          · rename_i big
            obtain ⟨bound, mark⟩ := List.getElem?_eq_some_iff.1 (eq_of_beq big)
            have one : PlainRun 1 (digits.drop (radixDigits r digits)) := by
              rw [List.drop_eq_getElem_cons bound, mark]
              exact PlainRun.zero.cons (by decide)
            exact ((run.add one).cons plain).cons (by decide)
          · exact (run.cons plain).cons (by decide)
      · rw [radixLength_of_ne _ zero]
        exact PlainRun.zero
  append t w ends := by
    rcases t with _ | ⟨z, _ | ⟨r, digits⟩⟩
    · cases ends
    · obtain rfl : z = '\n' := by simpa using ends
      exact radixLength_of_ne _ (by decide)
    · by_cases zero : z = '0'
      · subst zero
        rw [List.cons_append, List.cons_append, radixLength_cons, radixLength_cons]
        cases digits with
        | nil =>
          obtain rfl : r = '\n' := by simpa using ends
          rfl
        | cons d digits =>
          have ends' : (d :: digits).getLast? = some '\n' := by simpa using ends
          rw [(inline_radixDigits r).append _ w ends']
          have further := ((inline_radixDigits r).run (d :: digits)).getLast?_drop ends'
          have bound : radixDigits r (d :: digits) < (d :: digits).length := by
            by_contra beyond
            rw [List.drop_of_length_le (by omega)] at further
            cases further
          rw [List.getElem?_append_left bound]
      · rw [List.cons_append, radixLength_of_ne _ zero, radixLength_of_ne _ zero]

def fractionLength (t : List Char) : Nat :=
  digitsLength Char.isDigit t + exponentLength (t.drop (digitsLength Char.isDigit t))

theorem inline_fractionLength : Inline fractionLength := inline_decimalDigits.add inline_exponentLength

def decimalTail (whole : List Char) : List Char → Nat
  | '.' :: r =>
    if whole = [] then if digitsLength Char.isDigit r = 0 then 0 else fractionLength r + 1
    else if takesFraction whole then fractionLength r + 1
    else 0
  | 'n' :: _ => if whole = [] then 0 else 1
  | r => if whole = [] then 0 else if takesFraction whole then exponentLength r else 0

theorem decimalLength_eq (t : List Char) :
    decimalLength t = digitsLength Char.isDigit t + decimalTail
      (t.take (digitsLength Char.isDigit t)) (t.drop (digitsLength Char.isDigit t)) := by
  have bound := (inline_decimalDigits.run t).1
  have empty : t.take (digitsLength Char.isDigit t) = [] ↔ digitsLength Char.isDigit t = 0 := by
    rw [← List.length_eq_zero_iff, List.length_take, Nat.min_eq_left bound]
  unfold decimalLength decimalTail fractionLength
  simp only [empty]
  generalize digitsLength Char.isDigit t = n
  generalize t.take n = whole
  generalize t.drop n = rest
  cases n with
  | zero =>
    split
    · split
      · simp_all
      · simp_all
        omega
    · split <;> simp_all
    all_goals simp_all
  | succ n =>
    split
    · simp_all
    · simp_all
    · simp_all
    · simp_all
      split <;> omega
    · simp_all
      split <;> omega

theorem inline_decimalTail (whole : List Char) : Inline (decimalTail whole) where
  run t := by
    unfold decimalTail
    split
    · have fraction (r : List Char) : PlainRun (fractionLength r + 1) ('.' :: r) :=
        (inline_fractionLength.run r).cons (by decide)
      split
      · split
        · exact PlainRun.zero
        · exact fraction _
      · split
        · exact fraction _
        · exact PlainRun.zero
    · split
      · exact PlainRun.zero
      · exact PlainRun.zero.cons (by decide)
    · split
      · exact PlainRun.zero
      · split
        · exact inline_exponentLength.run _
        · exact PlainRun.zero
  append t w ends := by
    cases t with
    | nil => cases ends
    | cons c t =>
      have exponent := inline_exponentLength.append (c :: t) w ends
      by_cases dot : c = '.'
      · subst dot
        cases t with
        | nil => exact absurd ends (by decide)
        | cons d t =>
          have ends' : (d :: t).getLast? = some '\n' := by simpa using ends
          have digits := inline_decimalDigits.append _ w ends'
          have fraction := inline_fractionLength.append _ w ends'
          simp only [List.cons_append] at digits fraction ⊢
          simp only [decimalTail, digits, fraction]
      · by_cases big : c = 'n'
        · subst big
          rfl
        · have other (u : List Char) : decimalTail whole (c :: u) =
              if whole = [] then 0 else if takesFraction whole then exponentLength (c :: u) else 0 := by
            unfold decimalTail
            split <;> simp_all
          rw [List.cons_append, other, other, ← List.cons_append, exponent]

theorem inline_decimalLength : Inline decimalLength where
  run t := by
    rw [decimalLength_eq]
    exact (inline_decimalDigits.run t).add ((inline_decimalTail _).run _)
  append t w ends := by
    have bound := (inline_decimalDigits.run t).1
    rw [decimalLength_eq, decimalLength_eq, inline_decimalDigits.append t w ends,
      List.drop_append_of_le_length bound, List.take_append_of_le_length bound]
    rw [(inline_decimalTail _).append _ w ((inline_decimalDigits.run t).getLast?_drop ends)]

theorem inline_numberLength : Inline fun t => max (radixLength t) (decimalLength t) where
  run t := by
    rcases Nat.le_total (radixLength t) (decimalLength t) with le | le
    · rw [Nat.max_eq_right le]
      exact inline_decimalLength.run t
    · rw [Nat.max_eq_left le]
      exact inline_radixLength.run t
  append t w ends := by rw [inline_radixLength.append t w ends, inline_decimalLength.append t w ends]

end SourceSpecs.Syntax
