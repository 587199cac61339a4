import SourceSpecs.Proofs.EmbeddedToken
/-!
What a token takes in: at least one character, and no more than there are. Blanks and comments in
front of it are passed over from left to right.
-/
namespace SourceSpecs.Syntax

theorem escapeLength_le (t : List Char) : escapeLength t ≤ t.length := by
  unfold escapeLength
  split
  · rename_i t
    dsimp only
    split
    · rename_i closed
      have : (t.takeWhile isHexDigit).length < t.length := by
        simp only [Bool.and_eq_true, beq_iff_eq] at closed
        exact (List.getElem?_eq_some_iff.1 closed.2).1
      simp only [List.length_cons]
      omega
    · exact Nat.zero_le _
  · rename_i t _
    split
    · rename_i four
      have : 4 ≤ t.length := by
        simp only [Bool.and_eq_true, beq_iff_eq, List.length_take] at four
        omega
      simp only [List.length_cons]
      omega
    · exact Nat.zero_le _
  · exact Nat.zero_le _

theorem nameLength_le (known : Nat) (t : List Char) : nameLength known t ≤ t.length := by
  fun_induction nameLength known t with
  | case1 => exact Nat.le_refl _
  | case2 known c t ih => exact Nat.succ_le_succ ih
  | case3 c t part ih => exact Nat.succ_le_succ ih
  | case4 => exact Nat.zero_le _
  | case5 c t _ n _ ih => exact Nat.succ_le_succ ih

theorem nameLength?_bounds {n : Nat} {t : List Char} (h : nameLength? t = some n) :
    0 < n ∧ n ≤ t.length := by
  unfold nameLength? at h
  split at h
  · cases h
  · rename_i c t
    split at h
    · rename_i starts
      obtain rfl := Option.some.inj h
      refine ⟨?_, nameLength_le 0 _⟩
      rw [nameLength]
      split
      · exact Nat.succ_pos _
      · rename_i not_part
        split
        · rename_i no_escape
          simp [isNameStart, not_part, no_escape] at starts
        · exact Nat.succ_pos _
    · cases h

theorem stringRest?_bounds {q : Char} {l k n : Nat} {t : List Char}
    (h : stringRest? q l k t = some n) : l < n ∧ n ≤ l + t.length := by
  fun_induction stringRest? q l k t with
  | case1 => cases h
  | case2 l k c t ih =>
    have := ih h
    simp only [List.length_cons]
    omega
  | case3 l c t quote =>
    obtain rfl := Option.some.inj h
    simp
  | case4 => cases h
  | case5 l c t _ _ _ ih =>
    have := ih h
    simp only [List.length_cons]
    omega
  | case6 => cases h
  | case7 l c t _ _ _ ih =>
    have := ih h
    simp only [List.length_cons]
    omega

theorem patternRest?_bounds {l n : Nat} {inClass : Bool} {t : List Char}
    (h : patternRest? l inClass t = some n) : l < n ∧ n ≤ l + t.length := by
  fun_induction patternRest? l inClass t with
  | case1 => cases h
  | case2 => cases h
  | case3 l inClass c t _ ih =>
    have := ih h
    simp only [List.length_cons]
    omega
  | case4 => cases h
  | case5 =>
    obtain rfl := Option.some.inj h
    simp
  | case6 l inClass c t _ _ _ ih =>
    have := ih h
    simp only [List.length_cons]
    omega

theorem regularExpressionLength?_bounds {n : Nat} {t : List Char}
    (h : regularExpressionLength? t = some n) : 0 < n ∧ n ≤ t.length := by
  unfold regularExpressionLength? at h
  split at h
  · rename_i c t
    split at h
    · cases h
    · obtain ⟨m, pattern, rfl⟩ := Option.map_eq_some_iff.1 h
      have bounds := patternRest?_bounds pattern
      have flags := (List.takeWhile_prefix isLowerCase (l := (c :: t).drop (m - 1))).length_le
      simp only [List.length_cons, List.length_drop] at bounds flags ⊢
      omega
  · cases h

theorem templateText_bounds {l n : Nat} {t : List Char}
    (h : templateTextLength?.go l t = some n) : 0 < n ∧ l ≤ n ∧ n ≤ l + t.length := by
  fun_induction templateTextLength?.go l t with
  | case1 => cases h
  | case2 => cases h
  | case3 l t nonempty =>
    obtain rfl := Option.some.inj h
    have : l ≠ 0 := by simpa using nonempty
    omega
  | case4 => cases h
  | case5 l c t _ _ nonempty =>
    obtain rfl := Option.some.inj h
    have : l ≠ 0 := by simpa using nonempty
    omega
  | case6 l c t _ _ ih =>
    have := ih h
    simp only [List.length_cons]
    omega

theorem escapedLength_le (t : List Char) : escapedLength t ≤ t.length := by
  unfold escapedLength
  split
  · exact Nat.le_refl _
  · rename_i t
    split
    · rename_i two
      have : 2 ≤ t.length := by
        simp only [Bool.and_eq_true, beq_iff_eq, List.length_take] at two
        omega
      simp only [List.length_cons]
      omega
    · exact Nat.zero_le _
  · rename_i t
    have := escapeLength_le ('\\' :: 'u' :: t)
    simp only [List.length_cons] at this ⊢
    omega
  · split <;> simp
  · exact Nat.le_refl _

def Token.isProper : Token → Bool
  | .word _ w => w != []
  | .symbol m _ => m != []
  | _ => true

section Found

/-! What stands in the text where a token has been found, class by class. -/

variable {kind : Kind} {w m stops t : List Char} {except : List (List Char)} {n : Nat}

theorem exists_of_wordLength (h : (Token.word kind w).length? t = some n) :
    ∃ u, t = w ++ u ∧ n = w.length := by
  rw [Token.length?] at h
  split at h
  · cases h
  · rename_i u found
    split at h
    · exact ⟨u, after?_eq_some_iff.1 found, (Option.some.inj h).symm⟩
    · cases h

theorem exists_of_symbolLength (h : (Token.symbol m stops).length? t = some n) :
    ∃ u, t = m ++ u ∧ n = m.length := by
  rw [Token.length?] at h
  split at h
  · cases h
  · rename_i u found
    refine ⟨u, after?_eq_some_iff.1 found, ?_⟩
    split at h
    · split at h
      · cases h
      · exact (Option.some.inj h).symm
    · exact (Option.some.inj h).symm

theorem nameLength?_of_name (h : (Token.name kind except).length? t = some n) :
    nameLength? t = some n := by
  rw [Token.length?] at h
  split at h
  · cases h
  · rename_i found
    split at h
    · cases h
    · exact Option.some.inj h ▸ found

theorem exists_of_privateName (h : Token.privateName.length? t = some n) :
    ∃ u m, t = '#' :: u ∧ nameLength? u = some m ∧ n = m + 1 := by
  obtain ⟨u, rfl⟩ : ∃ u, t = '#' :: u := by
    rw [Token.length?.eq_def] at h
    split at h <;> simp_all
  obtain ⟨m, found, rfl⟩ := Option.map_eq_some_iff.1 h
  exact ⟨u, m, rfl, found, rfl⟩

theorem longest_of_number (h : Token.number.length? t = some n) :
    max (radixLength t) (decimalLength t) = n ∧ 0 < n := by
  rw [Token.length?_number, numberLength?] at h
  generalize max (radixLength t) (decimalLength t) = longest at h
  cases longest with
  | zero => cases h
  | succ m =>
    obtain rfl := Option.some.inj h
    exact ⟨rfl, Nat.succ_pos m⟩

theorem exists_of_string (h : Token.string.length? t = some n) :
    ∃ c u, t = c :: u ∧ (c = '\'' ∨ c = '"') ∧ stringRest? c 1 0 u = some n := by
  rw [Token.length?_string, stringLength?.eq_def] at h
  split at h
  · cases h
  · rename_i c u
    split at h
    · rename_i quoted
      exact ⟨c, u, rfl, by simpa using quoted, h⟩
    · cases h

theorem exists_of_regularExpression (h : Token.regularExpression.length? t = some n) :
    ∃ u, t = '/' :: u := by
  rw [Token.length?, regularExpressionLength?.eq_def] at h
  split at h
  · exact ⟨_, rfl⟩
  · cases h

theorem exists_of_escape (h : Token.escape.length? t = some n) :
    ∃ u, t = '\\' :: u ∧ n = escapedLength u + 1 := by
  obtain ⟨u, rfl⟩ : ∃ u, t = '\\' :: u := by
    rw [Token.length?.eq_def] at h
    split at h <;> simp_all
  rw [Token.length?] at h
  split at h
  · cases h
  · rename_i m escaped
    exact ⟨u, rfl, by rw [escaped, ← Option.some.inj h]⟩

theorem exists_of_condition (h : Token.condition.length? t = some n) :
    ∃ u, t = '?' :: u ∧ n = 1 := by
  obtain ⟨u, rfl⟩ : ∃ u, t = '?' :: u := by
    rw [Token.length?.eq_def] at h
    split at h <;> simp_all
  rw [Token.length?] at h
  split at h
  · exact ⟨u, rfl, (Option.some.inj h).symm⟩
  · cases h

theorem exists_of_interpreter (h : Token.interpreter.length? t = some n) :
    ∃ u, t = '#' :: '!' :: u ∧ n = (u.takeWhile (· != '\n')).length + 2 := by
  obtain ⟨u, rfl⟩ : ∃ u, t = '#' :: '!' :: u := by
    rw [Token.length?.eq_def] at h
    split at h <;> simp_all
  exact ⟨u, rfl, (Option.some.inj h).symm⟩

end Found

theorem Token.length?_le {k : Token} {n : Nat} {t : List Char} (h : k.length? t = some n) :
    n ≤ t.length := by
  cases k with
  | word kind w =>
    obtain ⟨u, rfl, rfl⟩ := exists_of_wordLength h
    simp
  | symbol m stops =>
    obtain ⟨u, rfl, rfl⟩ := exists_of_symbolLength h
    simp
  | name kind except => exact (nameLength?_bounds (nameLength?_of_name h)).2
  | privateName =>
    obtain ⟨u, m, rfl, found, rfl⟩ := exists_of_privateName h
    exact Nat.succ_le_succ (nameLength?_bounds found).2
  | number => exact (longest_of_number h).1 ▸ (inline_numberLength.run t).1
  | string =>
    obtain ⟨c, u, rfl, _, found⟩ := exists_of_string h
    have := stringRest?_bounds found
    simp only [List.length_cons]
    omega
  | regularExpression => exact (regularExpressionLength?_bounds h).2
  | templateText =>
    have := templateText_bounds (l := 0) h
    omega
  | escape =>
    obtain ⟨u, rfl, rfl⟩ := exists_of_escape h
    exact Nat.succ_le_succ (escapedLength_le u)
  | condition =>
    obtain ⟨u, rfl, rfl⟩ := exists_of_condition h
    simp
  | interpreter =>
    obtain ⟨u, rfl, rfl⟩ := exists_of_interpreter h
    have := (List.takeWhile_prefix (· != '\n') (l := u)).length_le
    simp only [List.length_cons]
    omega

theorem Token.length?_pos {k : Token} {n : Nat} {t : List Char} (proper : k.isProper = true)
    (h : k.length? t = some n) : 0 < n := by
  cases k with
  | word kind w =>
    obtain ⟨u, rfl, rfl⟩ := exists_of_wordLength h
    exact List.length_pos_iff.2 (by simpa [isProper] using proper)
  | symbol m stops =>
    obtain ⟨u, rfl, rfl⟩ := exists_of_symbolLength h
    exact List.length_pos_iff.2 (by simpa [isProper] using proper)
  | name kind except => exact (nameLength?_bounds (nameLength?_of_name h)).1
  | privateName =>
    obtain ⟨u, m, rfl, _, rfl⟩ := exists_of_privateName h
    exact Nat.succ_pos m
  | number => exact (longest_of_number h).2
  | string =>
    obtain ⟨c, u, rfl, _, found⟩ := exists_of_string h
    have := stringRest?_bounds found
    omega
  | regularExpression => exact (regularExpressionLength?_bounds h).1
  | templateText => exact (templateText_bounds (l := 0) h).1
  | escape =>
    obtain ⟨u, rfl, rfl⟩ := exists_of_escape h
    exact Nat.succ_pos _
  | condition =>
    obtain ⟨u, rfl, rfl⟩ := exists_of_condition h
    exact Nat.one_pos
  | interpreter =>
    obtain ⟨u, rfl, rfl⟩ := exists_of_interpreter h
    exact Nat.succ_pos _

end SourceSpecs.Syntax
