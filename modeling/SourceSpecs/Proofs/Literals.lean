import SourceSpecs.Proofs.Identifier
/-!
Numbers and strings as they are written, and how far they are read: as far as they go, whatever
follows them that is no part of a word and no point.
-/
namespace SourceSpecs.Syntax

/-- A text that is read as one number. -/
structure NumberLiteral where
  chars : List Char
  whole : numberLength? chars = some chars.length

structure StringLiteral where
  chars : List Char
  whole : stringLength? chars = some chars.length

section Number

variable {p : Char → Bool} {t w : List Char}

theorem mem_digits {d : Char} (digit : d.isDigit = true) : d ∈ "0123456789".toList := by
  have checked : ∀ n < 58, 48 ≤ n → Char.ofNat n ∈ "0123456789".toList := by decide
  rw [Char.isDigit, Bool.and_eq_true, decide_eq_true_eq, decide_eq_true_eq] at digit
  have known := checked d.toNat (Nat.lt_succ_of_le digit.2) digit.1
  rwa [Char.ofNat_toNat] at known

theorem digitsLength_cons {p : Char → Bool} {c : Char} {t : List Char} (digit : p c = true)
    (single : t.head? ≠ some '_') : digitsLength p (c :: t) = digitsLength p t + 1 := by
  cases t with
  | nil => rw [digitsLength.eq_2, if_pos digit, digitsLength]
  | cons d t =>
    have apart : d ≠ '_' := by simpa using single
    rw [digitsLength.eq_4 p c (d :: t) (by simp) (by simp [apart]), if_pos digit]

theorem digitsLength_endsWord (parts : ∀ x, p x = true → isNamePart x = true) (ends : EndsWord t) :
    digitsLength p t = 0 := by
  cases t with
  | nil => rfl
  | cons x t =>
    apply digitsLength_of_not
    intro digit
    exact ends.ne (parts x digit) rfl

theorem digitsLength_append (parts : ∀ x, p x = true → isNamePart x = true)
    (no_underscore : p '_' = false) (ends : EndsWord t) :
    digitsLength p (w ++ t) = digitsLength p w := by
  have none_behind := digitsLength_endsWord parts ends
  fun_induction digitsLength p w with
  | case1 => exact none_behind
  | case2 c digit =>
    rw [List.singleton_append, digitsLength_cons digit (ends.ne (by decide)), none_behind]
  | case3 c outside => exact digitsLength_of_not t outside
  | case4 c d u digit next ih =>
    simp only [List.cons_append] at ih ⊢
    rw [digitsLength.eq_3, if_pos digit, if_pos next, ih]
  | case5 c d u digit last =>
    simp only [List.cons_append]
    rw [digitsLength.eq_3, if_pos digit, if_neg last]
  | case6 c d u outside => exact digitsLength_of_not _ outside
  | case7 c u nonempty single digit ih =>
    by_cases last : u = ['_']
    · subst last
      rw [digitsLength_of_not [] (by simp [no_underscore])]
      cases t with
      | nil => rw [List.append_nil, digitsLength.eq_4 p c ['_'] (by simp) (by simp), if_pos digit,
          digitsLength_of_not [] (by simp [no_underscore])]
      | cons x t =>
        have outside : ¬ p x = true := fun digit => ends.ne (parts x digit) rfl
        exact (digitsLength.eq_3 p c x t).trans (by rw [if_pos digit, if_neg outside])
    · have single' : ∀ e v, u ++ t = '_' :: e :: v → False := by
        intro e v same
        rcases u with _ | ⟨x, _ | ⟨y, u⟩⟩
        · exact nonempty rfl
        · exact last (by rw [(List.cons.inj same).1])
        · obtain ⟨rfl, _⟩ := List.cons.inj same
          exact single y u rfl
      rw [List.cons_append, digitsLength.eq_4 p c (u ++ t)
        (fun empty => nonempty (List.append_eq_nil_iff.1 empty).1) single', if_pos digit, ih]
  | case8 c u nonempty single outside => exact digitsLength_of_not _ outside

theorem decimalDigits_append (ends : EndsWord t) :
    digitsLength Char.isDigit (w ++ t) = digitsLength Char.isDigit w :=
  digitsLength_append (fun _ => isNamePart_of_isDigit) (by decide) ends

theorem exponentLength_endsWord (ends : EndsWord t) : exponentLength t = 0 := by
  cases t with
  | nil => rfl
  | cons c t =>
    have small : c ≠ 'e' := by
      rintro rfl
      exact ends.ne (by decide) rfl
    have capital : c ≠ 'E' := by
      rintro rfl
      exact ends.ne (by decide) rfl
    simp [exponentLength_cons, small, capital]

theorem exponentLength_append (whole : exponentLength w = w.length) (ends : EndsWord t) :
    exponentLength (w ++ t) = w.length := by
  cases w with
  | nil => exact exponentLength_endsWord ends
  | cons e u =>
    rw [exponentLength_cons] at whole
    split at whole
    · rename_i letter
      split at whole
      · cases whole
      · rename_i some_digit
        have sign_length : signLength u ≤ u.length := (inline_signLength.run u).1
        have same_sign : signLength (u ++ t) = signLength u := by
          cases u with
          | nil => exact absurd rfl some_digit
          | cons x u =>
            unfold signLength
            split <;> simp_all
        rw [List.cons_append, exponentLength_cons, if_pos letter, same_sign,
          List.drop_append_of_le_length sign_length, decimalDigits_append ends, if_neg some_digit, whole]
    · cases whole

theorem fractionLength_append (whole : fractionLength w = w.length) (ends : EndsWord t) :
    fractionLength (w ++ t) = w.length := by
  have bound := (inline_decimalDigits.run w).1
  unfold fractionLength at whole ⊢
  have exponent : exponentLength (w.drop (digitsLength Char.isDigit w)) =
      (w.drop (digitsLength Char.isDigit w)).length := by
    rw [List.length_drop]
    omega
  rw [decimalDigits_append ends, List.drop_append_of_le_length bound,
    exponentLength_append exponent ends, List.length_drop]
  omega

theorem decimalTail_other {whole u : List Char} {c : Char} (no_point : c ≠ '.') (no_mark : c ≠ 'n') :
    decimalTail whole (c :: u) =
      if whole = [] then 0 else if takesFraction whole then exponentLength (c :: u) else 0 := by
  unfold decimalTail
  split <;> simp_all

theorem decimalTail_append {whole : List Char} (taken : decimalTail whole w = w.length)
    (ends : EndsWord t) (no_point : t.head? ≠ some '.') : decimalTail whole (w ++ t) = w.length := by
  cases w with
  | nil =>
    cases t with
    | nil => exact taken
    | cons c t =>
      have apart : c ≠ '.' := by simpa using no_point
      have no_mark : c ≠ 'n' := by
        rintro rfl
        exact ends.ne (by decide) rfl
      rw [List.nil_append, decimalTail_other apart no_mark, exponentLength_endsWord ends]
      simp
  | cons c u =>
    by_cases point : c = '.'
    · subst point
      rw [List.cons_append, decimalTail] at *
      have fraction (length : fractionLength u + 1 = ('.' :: u).length) :
          fractionLength (u ++ t) + 1 = ('.' :: u).length := by
        rw [fractionLength_append (by simpa using length) ends, List.length_cons]
      rw [decimalDigits_append ends]
      split at taken
      · split at taken
        · cases taken
        · rename_i empty some_digit
          rw [if_pos empty, if_neg some_digit]
          exact fraction taken
      · split at taken
        · rename_i nonempty takes
          rw [if_neg nonempty, if_pos takes]
          exact fraction taken
        · cases taken
    · by_cases big : c = 'n'
      · subst big
        rwa [List.cons_append, decimalTail] at *
      · rw [decimalTail_other point big] at taken
        rw [List.cons_append, decimalTail_other point big]
        split at taken
        · cases taken
        · split at taken
          · rename_i nonempty takes
            rw [if_neg nonempty, if_pos takes, ← List.cons_append]
            exact exponentLength_append taken ends
          · cases taken

theorem decimalLength_append (whole : decimalLength w = w.length) (ends : EndsWord t)
    (no_point : t.head? ≠ some '.') : decimalLength (w ++ t) = w.length := by
  have bound := (inline_decimalDigits.run w).1
  rw [decimalLength_eq] at whole ⊢
  have tail : decimalTail (w.take (digitsLength Char.isDigit w)) (w.drop (digitsLength Char.isDigit w)) =
      (w.drop (digitsLength Char.isDigit w)).length := by
    rw [List.length_drop]
    omega
  rw [decimalDigits_append ends, List.take_append_of_le_length bound,
    List.drop_append_of_le_length bound, decimalTail_append tail ends no_point, List.length_drop]
  omega

theorem isNamePart_of_isHexDigit {x : Char} (digit : isHexDigit x = true) : isNamePart x = true := by
  apply isNamePart_of_isIdentifierPart
  rw [isIdentifierPart_iff]
  unfold isHexDigit Char.isDigit at digit
  simp only [Bool.or_eq_true, Bool.and_eq_true, decide_eq_true_eq, ge_iff_le, Char.le_def,
    UInt32.le_iff_toNat_le] at digit
  change ((48 ≤ x.toNat ∧ x.toNat ≤ 57) ∨ (97 ≤ x.toNat ∧ x.toNat ≤ 102)) ∨
    (65 ≤ x.toNat ∧ x.toNat ≤ 70) at digit
  omega

theorem radixDigits_append (r : Char) (ends : EndsWord t) : radixDigits r (w ++ t) = radixDigits r w := by
  have octal (x : Char) (digit : ('0' ≤ x && x ≤ '7') = true) : isNamePart x = true := by
    apply isNamePart_of_isDigit
    simp only [Bool.and_eq_true, decide_eq_true_eq] at digit
    simp only [Char.isDigit, Bool.and_eq_true, decide_eq_true_eq, ge_iff_le]
    exact ⟨digit.1, Char.le_trans digit.2 (by decide)⟩
  have binary (x : Char) (digit : (x == '0' || x == '1') = true) : isNamePart x = true := by
    simp only [Bool.or_eq_true, beq_iff_eq] at digit
    rcases digit with rfl | rfl <;> decide
  unfold radixDigits
  rw [digitsLength_append (fun _ => isNamePart_of_isHexDigit) (by decide) ends,
    digitsLength_append octal (by decide) ends, digitsLength_append binary (by decide) ends]

theorem radixLength_other {r : Char} {u : List Char} (other : r ∉ "xXoObB".toList) :
    radixLength ('0' :: r :: u) = 0 := by
  have apart (x : Char) (member : x ∈ "xXoObB".toList) : (r == x) = false := by
    rw [beq_eq_false_iff_ne]
    rintro rfl
    exact other member
  have unread : radixDigits r u = 0 := by
    rw [radixDigits, apart 'x' (by decide), apart 'X' (by decide), apart 'o' (by decide),
      apart 'O' (by decide), apart 'b' (by decide), apart 'B' (by decide)]
    rfl
  rw [radixLength_cons, unread]
  rfl

theorem radixLength_append (ends : EndsWord t) : radixLength (w ++ t) = radixLength w := by
  rcases w with _ | ⟨z, _ | ⟨r, u⟩⟩
  · cases t with
    | nil => rfl
    | cons c t =>
      apply radixLength_of_ne
      rintro rfl
      exact ends.ne (by decide) rfl
  · by_cases zero : z = '0'
    · subst zero
      cases t with
      | nil => rfl
      | cons r t =>
        apply radixLength_other
        intro member
        have parts : ∀ x ∈ "xXoObB".toList, isNamePart x = true := by decide
        exact ends.ne (parts r member) rfl
    · exact (radixLength_of_ne _ zero).trans (radixLength_of_ne _ zero).symm
  · by_cases zero : z = '0'
    · subst zero
      have mark : ((u ++ t)[radixDigits r u]? == some 'n') = (u[radixDigits r u]? == some 'n') := by
        rcases Nat.lt_or_ge (radixDigits r u) u.length with inside | beyond
        · rw [List.getElem?_append_left inside]
        · have bound := ((inline_radixDigits r).run u).1
          have none_here : u[radixDigits r u]? = none := List.getElem?_eq_none beyond
          have no_mark : (u ++ t)[radixDigits r u]? ≠ some 'n' := by
            rw [List.getElem?_append_right beyond, Nat.sub_eq_zero_of_le bound, ← List.head?_eq_getElem?]
            exact ends.ne (by decide)
          rw [none_here, beq_eq_false_iff_ne.2 no_mark]
          rfl
      rw [List.cons_append, List.cons_append, radixLength_cons, radixLength_cons,
        radixDigits_append r ends, mark]
    · exact (radixLength_of_ne _ zero).trans (radixLength_of_ne _ zero).symm

theorem decimalLength_radix {r : Char} {u : List Char} (member : r ∈ "xXoObB".toList) :
    decimalLength ('0' :: r :: u) = 1 := by
  have marks : ∀ x ∈ "xXoObB".toList, x.isDigit = false ∧ x ≠ '_' ∧ x ≠ '.' ∧ x ≠ 'n' ∧
      (x == 'e' || x == 'E') = false := by decide
  obtain ⟨no_digit, no_underscore, no_point, no_mark, no_exponent⟩ := marks r member
  have digits : digitsLength Char.isDigit ('0' :: r :: u) = 1 := by
    rw [digitsLength_cons (by decide) (by simpa using no_underscore),
      digitsLength_of_not u (by simp [no_digit])]
  rw [decimalLength_eq, digits]
  change 1 + decimalTail ['0'] (r :: u) = 1
  rw [decimalTail_other no_point no_mark, exponentLength_cons, no_exponent]
  simp

theorem numberLength?_append (whole : numberLength? w = some w.length) (ends : EndsWord t)
    (no_point : t.head? ≠ some '.') : numberLength? (w ++ t) = some w.length := by
  have longest (u : List Char) (n : Nat) :
      numberLength? u = some n ↔ max (radixLength u) (decimalLength u) = n ∧ n ≠ 0 := by
    rw [numberLength?]
    generalize max (radixLength u) (decimalLength u) = length
    cases length with
    | zero =>
      simp only [reduceCtorEq, false_iff, not_and, not_not]
      exact Eq.symm
    | succ length =>
      simp only [Option.some.injEq]
      omega
  rw [longest] at whole ⊢
  obtain ⟨taken, positive⟩ := whole
  refine ⟨?_, positive⟩
  rw [radixLength_append ends]
  by_cases decimal : decimalLength w = w.length
  · rw [decimalLength_append decimal ends no_point]
    omega
  · have radix : radixLength w = w.length := by omega
    rcases w with _ | ⟨z, _ | ⟨r, u⟩⟩
    · exact absurd rfl positive
    · exact absurd radix (by rw [show radixLength [z] = 0 by unfold radixLength; split <;> simp_all]; simp)
    · by_cases zero : z = '0'
      · subst zero
        by_cases member : r ∈ "xXoObB".toList
        · have alone : decimalLength ('0' :: r :: (u ++ t)) = 1 := decimalLength_radix member
          rw [radix, List.cons_append, List.cons_append, alone]
          exact Nat.max_eq_left (by simp)
        · rw [radixLength_other member] at radix
          cases radix
      · rw [radixLength_of_ne _ zero] at radix
        cases radix

end Number

section String

variable {t w : List Char}

theorem hexRun_append_of_true {n : Nat} (h : hexRun n t = true) : hexRun n (t ++ w) = true := by
  unfold hexRun at h ⊢
  simp only [Bool.and_eq_true, beq_iff_eq, List.length_take] at h
  rw [List.take_append_of_le_length (by omega)]
  simpa only [Bool.and_eq_true, beq_iff_eq, List.length_take] using h

theorem bracedLength_append_of_ne (taken : bracedLength t ≠ 0) : bracedLength (t ++ w) = bracedLength t := by
  unfold bracedLength at taken ⊢
  split at taken
  · rename_i closed
    have closed' := closed
    simp only [Bool.and_eq_true, decide_eq_true_eq, beq_iff_eq] at closed
    have inside := (List.getElem?_eq_some_iff.1 closed.2).1
    have same : (t ++ w).takeWhile isHexDigit = t.takeWhile isHexDigit := by
      rw [List.takeWhile_append, if_neg (by omega)]
    rw [same, List.getElem?_append_left inside]
  · exact absurd rfl taken

theorem unicodeLength_append_of_ne (taken : unicodeLength t ≠ 0) :
    unicodeLength (t ++ w) = unicodeLength t := by
  cases t with
  | nil => exact absurd rfl taken
  | cons c t =>
    by_cases brace : c = '\x7b'
    · subst brace
      rw [unicodeLength] at taken
      have braced : bracedLength t ≠ 0 := by
        intro none_read
        simp [none_read] at taken
      rw [List.cons_append, unicodeLength, unicodeLength, bracedLength_append_of_ne braced]
    · rw [unicodeLength_other t brace] at taken ⊢
      split at taken
      · rename_i run
        rw [List.cons_append, unicodeLength_other _ brace, ← List.cons_append,
          if_pos (hexRun_append_of_true run), if_pos run]
      · exact absurd rfl taken

theorem escapedLength_append_of_ne {c d : Char} (taken : escapedLength (c :: d :: t) ≠ 0) :
    escapedLength (c :: d :: t ++ w) = escapedLength (c :: d :: t) := by
  by_cases x : c = 'x'
  · subst x
    rw [escapedLength_x] at taken
    split at taken
    · rename_i run
      rw [List.cons_append, escapedLength_x, escapedLength_x, if_pos (hexRun_append_of_true run), if_pos run]
    · exact absurd rfl taken
  · by_cases u : c = 'u'
    · subst u
      rw [escapedLength_u, escapeLength_u] at taken
      have unicode : unicodeLength (d :: t) ≠ 0 := by
        intro none_read
        simp [none_read] at taken
      rw [List.cons_append, escapedLength_u, escapedLength_u, escapeLength_u, escapeLength_u,
        unicodeLength_append_of_ne unicode]
    · rw [List.cons_append, List.cons_append, escapedLength_other _ x u, escapedLength_other _ x u]

theorem stringRest?_append_of_some {q : Char} {length known n : Nat} (apart : '\\' ≠ q)
    (closed : stringRest? q length known t = some n) : stringRest? q length known (t ++ w) = some n := by
  induction t generalizing length known with
  | nil => rw [stringRest?] at closed; cases closed
  | cons c t ih =>
    cases known with
    | succ known =>
      rw [stringRest?] at closed
      rw [List.cons_append, stringRest?]
      exact ih closed
    | zero =>
      by_cases quote : c = q
      · subst quote
        rw [stringRest?_quote] at closed
        rw [List.cons_append, stringRest?_quote, closed]
      · by_cases escape : c = '\\'
        · subst escape
          rw [stringRest?_escape length t apart] at closed
          split at closed
          · cases closed
          · rename_i taken
            rcases t with _ | ⟨c, _ | ⟨d, t⟩⟩
            · exact absurd rfl taken
            · cases known : escapedLength [c] with
              | zero => exact absurd known taken
              | succ k =>
                rw [known, stringRest?, stringRest?] at closed
                cases closed
            · rw [List.cons_append, stringRest?_escape _ _ apart, escapedLength_append_of_ne taken,
                if_neg taken]
              exact ih closed
        · rw [stringRest?_other length t quote escape] at closed
          rw [List.cons_append, stringRest?_other _ _ quote escape]
          split at closed
          · cases closed
          · rename_i in_line
            rw [if_neg in_line]
            exact ih closed

theorem stringLength?_append {n : Nat} (whole : stringLength? t = some n) :
    stringLength? (t ++ w) = some n := by
  cases t with
  | nil => cases whole
  | cons c t =>
    rw [stringLength?] at whole
    rw [List.cons_append, stringLength?]
    split at whole
    · rename_i quote
      rw [if_pos quote]
      refine stringRest?_append_of_some ?_ whole
      rintro rfl
      cases quote
    · cases whole

theorem StringLiteral.begins (s : StringLiteral) :
    ∃ x u, s.chars = x :: u ∧ (x = '\'' ∨ x = '"') := by
  obtain ⟨w, whole⟩ := s
  cases w with
  | nil => cases whole
  | cons x u =>
    refine ⟨x, u, rfl, ?_⟩
    rw [stringLength?] at whole
    split at whole
    · rename_i quote
      simpa using quote
    · cases whole

end String

theorem numberLength?_other {x : Char} {u : List Char} (no_digit : x.isDigit = false) (no_dot : x ≠ '.') :
    numberLength? (x :: u) = none := by
  have not_zero : x ≠ '0' := by
    rintro rfl
    exact absurd no_digit (by decide)
  have no_tail : decimalTail [] (x :: u) = 0 := by
    unfold decimalTail
    split
    · rename_i same
      exact absurd (List.cons.inj same).1 no_dot
    · rfl
    · rfl
  rw [numberLength?, radixLength_of_ne u not_zero, decimalLength_eq,
    digitsLength_of_not u (by simp [no_digit]), List.take_zero, List.drop_zero, no_tail]
  rfl

theorem numberLength?_point {u : List Char} (no_digit : u.head?.any Char.isDigit = false) :
    numberLength? ('.' :: u) = none := by
  have digitless : digitsLength Char.isDigit u = 0 := by
    cases u with
    | nil => rfl
    | cons x u => exact digitsLength_of_not u (by simpa using no_digit)
  have no_tail : decimalTail [] ('.' :: u) = 0 := by
    rw [decimalTail, if_pos rfl, if_pos digitless]
  rw [numberLength?, radixLength_of_ne u (by decide), decimalLength_eq,
    digitsLength_of_not u (by decide), List.take_zero, List.drop_zero, no_tail]
  rfl

theorem NumberLiteral.begins (n : NumberLiteral) :
    ∃ x u, n.chars = x :: u ∧ (x.isDigit = true ∨ x = '.' ∧ u.head?.any Char.isDigit = true) := by
  obtain ⟨w, whole⟩ := n
  cases w with
  | nil => cases whole
  | cons x u =>
    refine ⟨x, u, rfl, ?_⟩
    by_cases digit : x.isDigit = true
    · exact Or.inl digit
    · by_cases point : x = '.'
      · refine Or.inr ⟨point, ?_⟩
        by_contra no_digit
        rw [point, numberLength?_point (by simpa using no_digit)] at whole
        cases whole
      · rw [numberLength?_other (by simpa using digit) point] at whole
        cases whole

theorem digitsLength_digits {w : List Char} (digits : ∀ x ∈ w, x.isDigit = true) :
    digitsLength Char.isDigit w = w.length := by
  induction w with
  | nil => rfl
  | cons c w ih =>
    have single : w.head? ≠ some '_' := by
      intro first
      obtain ⟨u, rfl⟩ := List.head?_eq_some_iff.1 first
      exact absurd (digits '_' (by simp)) (by decide)
    rw [digitsLength_cons (digits c List.mem_cons_self) single,
      ih fun x member => digits x (List.mem_cons_of_mem c member), List.length_cons]

theorem radixLength_of_digits {w : List Char} (digits : ∀ x ∈ w, x.isDigit = true) : radixLength w = 0 := by
  rcases w with _ | ⟨z, _ | ⟨r, u⟩⟩
  · rfl
  · unfold radixLength
    split <;> simp_all
  · by_cases zero : z = '0'
    · subst zero
      apply radixLength_other
      intro member
      have letters : ∀ x ∈ "xXoObB".toList, x.isDigit = false := by decide
      exact absurd (digits r (by simp)) (by simp [letters r member])
    · exact radixLength_of_ne _ zero

theorem numberLength?_digits (n : Numeral) : numberLength? n.digits = some n.digits.length := by
  have digits : ∀ x ∈ n.digits, x.isDigit = true := fun x => List.all_eq_true.1 n.decimal x
  have decimal : decimalLength n.digits = n.digits.length := by
    rw [decimalLength_eq, digitsLength_digits digits, List.take_length, List.drop_length]
    simp [decimalTail, n.nonempty, exponentLength]
  have positive := List.length_pos_iff.2 n.nonempty
  rw [numberLength?, radixLength_of_digits digits, decimal, Nat.zero_max]
  split
  · omega
  · rfl

def Numeral.literal (n : Numeral) : NumberLiteral := ⟨n.digits, numberLength?_digits n⟩

theorem Numeral.starts (n : Numeral) : n.literal.chars.head?.any Char.isDigit = true := by
  obtain ⟨x, u, digits, digit⟩ := n.begins
  change n.digits.head?.any Char.isDigit = true
  rw [digits]
  exact digit

end SourceSpecs.Syntax
