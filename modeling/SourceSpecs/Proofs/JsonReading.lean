import SourceSpecs.Json.Reader
/-!
The text of a JSON value is read as that value, whatever follows it.
-/
namespace SourceSpecs.Json

section Strings

def Plain (c : Char) : Prop := 0x20 ≤ c.toNat ∧ c.toNat < 0x7F ∧ c ≠ '"' ∧ c ≠ '\\'

theorem escape_cases (c : Char) : (∃ e, escape c = ['\\', e] ∧ shortEscape? e = some c) ∨
    (escape c = [c] ∧ Plain c) ∨ escape c = (units16 c).flatMap fun u => '\\' :: 'u' :: hex4 u := by
  have number {d : Char} (same : c.toNat = d.toNat) : c = d := Char.toNat_inj.1 same
  unfold escape
  split
  · rename_i same
    exact Or.inl ⟨'"', rfl, congrArg some same.symm⟩
  split
  · rename_i same
    exact Or.inl ⟨'\\', rfl, congrArg some same.symm⟩
  split
  · rename_i same
    exact Or.inl ⟨'n', rfl, congrArg some same.symm⟩
  split
  · rename_i same
    exact Or.inl ⟨'r', rfl, congrArg some same.symm⟩
  split
  · rename_i same
    exact Or.inl ⟨'t', rfl, congrArg some same.symm⟩
  split
  · rename_i same
    exact Or.inl ⟨'b', rfl, congrArg some (number (d := '\x08') same).symm⟩
  split
  · rename_i same
    exact Or.inl ⟨'f', rfl, congrArg some (number (d := '\x0c') same).symm⟩
  split
  · rename_i quote slash _ _ _ _ _ graphic
    exact Or.inr (Or.inl ⟨rfl, graphic.1, graphic.2, quote, slash⟩)
  · exact Or.inr (Or.inr rfl)

theorem hexValue?_hexDigit (n : Nat) : hexValue? (hexDigit n) = some (n % 16) := by
  have each : ∀ m < 16, hexValue? (Nat.digitChar m) = some m := by decide
  exact each (n % 16) (Nat.mod_lt n (by decide))

theorem push_push (us vs : List Nat) (later : Option (List Nat × List Char)) :
    push us (push vs later) = push (us ++ vs) later := by
  cases later with
  | none => rfl
  | some read => simp [push]

theorem readUnits_hex {need value : Nat} {n : Nat} (more : ¬ need ≤ 1) (t : List Char) :
    readUnits (.hex need value) (hexDigit n :: t) =
      readUnits (.hex (need - 1) (value * 16 + n % 16)) t := by
  rw [readUnits, hexValue?_hexDigit, Option.bind_some, if_neg more]

theorem readUnits_unit {u : Nat} (small : u < 0x10000) (t : List Char) :
    readUnits .plain ('\\' :: 'u' :: hex4 u ++ t) = push [u] (readUnits .plain t) := by
  have value : (((0 * 16 + u / 4096 % 16) * 16 + u / 256 % 16) * 16 + u / 16 % 16) * 16 + u % 16 = u := by
    omega
  rw [hex4]
  simp only [List.cons_append, List.nil_append]
  rw [readUnits, if_neg (by decide), if_pos rfl, readUnits, if_pos rfl, readUnits_hex (by decide),
    readUnits_hex (by decide), readUnits_hex (by decide), readUnits, hexValue?_hexDigit,
    Option.bind_some, if_pos (by decide), value]

theorem units16_lt (c : Char) : ∀ u ∈ units16 c, u < 0x10000 := by
  have valid : c.toNat < 0xD800 ∨ 0xDFFF < c.toNat ∧ c.toNat < 0x110000 := c.valid
  intro u member
  unfold units16 at member
  dsimp only at member
  split at member
  · simp only [List.mem_singleton] at member
    omega
  · simp only [List.mem_cons, List.not_mem_nil, or_false] at member
    omega

theorem readUnits_units {us : List Nat} (small : ∀ u ∈ us, u < 0x10000) (t : List Char) :
    readUnits .plain ((us.flatMap fun u => '\\' :: 'u' :: hex4 u) ++ t) =
      push us (readUnits .plain t) := by
  induction us with
  | nil => simp [push]
  | cons u us ih =>
    rw [List.flatMap_cons, List.append_assoc, readUnits_unit (small u List.mem_cons_self),
      ih fun v member => small v (List.mem_cons_of_mem u member), push_push, List.singleton_append]

theorem readUnits_short {e c : Char} (short : shortEscape? e = some c) (t : List Char) :
    readUnits .plain ('\\' :: e :: t) = push (units16 c) (readUnits .plain t) := by
  have other : e ≠ 'u' := by
    intro same
    rw [same] at short
    cases short
  rw [readUnits, if_neg (by decide), if_pos rfl, readUnits, if_neg other, short, Option.bind_some]

theorem readUnits_plain {c : Char} (plain : Plain c) (t : List Char) :
    readUnits .plain (c :: t) = push (units16 c) (readUnits .plain t) := by
  obtain ⟨graphic, _, quote, slash⟩ := plain
  rw [readUnits, if_neg quote, if_neg slash, if_neg (Nat.not_lt.2 graphic)]

theorem readUnits_escape (c : Char) (t : List Char) :
    readUnits .plain (escape c ++ t) = push (units16 c) (readUnits .plain t) := by
  rcases escape_cases c with ⟨e, whole, short⟩ | ⟨whole, plain⟩ | whole
  · rw [whole]
    exact readUnits_short short t
  · rw [whole]
    exact readUnits_plain plain t
  · rw [whole]
    exact readUnits_units (units16_lt c) t

theorem readUnits_flatMap (s t : List Char) :
    readUnits .plain (s.flatMap escape ++ '"' :: t) = some (s.flatMap units16, t) := by
  induction s with
  | nil => rfl
  | cons c s ih =>
    rw [List.flatMap_cons, List.append_assoc, readUnits_escape, ih]
    rfl

theorem ofUnits16?_units16 (c : Char) (us : List Nat) :
    ofUnits16? (units16 c ++ us) = (ofUnits16? us).map (c :: ·) := by
  have valid : c.toNat < 0xD800 ∨ 0xDFFF < c.toNat ∧ c.toNat < 0x110000 := c.valid
  unfold units16
  dsimp only
  split
  · have low : isLowHalf c.toNat = false := by
      simp only [isLowHalf, Bool.and_eq_false_iff, decide_eq_false_iff_not]
      omega
    have high : isHighHalf c.toNat = false := by
      simp only [isHighHalf, Bool.and_eq_false_iff, decide_eq_false_iff_not]
      omega
    rw [List.singleton_append, ofUnits16?.eq_def]
    simp only [high, low, Char.ofNat_toNat]
    rfl
  · have high : isHighHalf (0xD800 + (c.toNat - 0x10000) / 0x400) = true := by
      simp only [isHighHalf, Bool.and_eq_true, decide_eq_true_eq]
      omega
    have low : isLowHalf (0xDC00 + (c.toNat - 0x10000) % 0x400) = true := by
      simp only [isLowHalf, Bool.and_eq_true, decide_eq_true_eq]
      omega
    have value : 0x10000 + (0xD800 + (c.toNat - 0x10000) / 0x400 - 0xD800) * 0x400 +
        (0xDC00 + (c.toNat - 0x10000) % 0x400 - 0xDC00) = c.toNat := by omega
    rw [List.cons_append, List.singleton_append, ofUnits16?.eq_def]
    simp only [high, low, value, Char.ofNat_toNat, if_true]

theorem ofUnits16?_flatMap (s : List Char) : ofUnits16? (s.flatMap units16) = some s := by
  induction s with
  | nil => rfl
  | cons c s ih => rw [List.flatMap_cons, ofUnits16?_units16, ih, Option.map_some]

theorem readString_flatMap (s : String) (t : List Char) :
    readString (s.toList.flatMap escape ++ '"' :: t) = some (s, t) := by
  rw [readString, readUnits_flatMap, Option.bind_some]
  dsimp only
  rw [ofUnits16?_flatMap, Option.map_some, String.ofList_toList]

end Strings

section Numbers

theorem toDigits_eq_cons_zero {n : Nat} {t : List Char} (zero : Nat.toDigits 10 n = '0' :: t) :
    t = [] := by
  induction n using Nat.strongRecOn generalizing t with
  | ind n ih =>
    by_cases small : n < 10
    · rw [Nat.toDigits_of_lt_base small] at zero
      exact (List.cons.inj zero).2.symm
    · rw [Nat.toDigits_of_base_le (by decide) (by omega)] at zero
      obtain ⟨front, whole⟩ : ∃ front, Nat.toDigits 10 (n / 10) = '0' :: front := by
        cases shorter : Nat.toDigits 10 (n / 10) with
        | nil => exact absurd shorter Nat.toDigits_ne_nil
        | cons c front =>
          rw [shorter] at zero
          exact ⟨front, by rw [(List.cons.inj zero).1]⟩
      have nothing := ih (n / 10) (by omega) whole
      have value := Nat.ofDigitChars_ten_toDigits (n := n / 10)
      rw [whole, nothing] at value
      change 0 = n / 10 at value
      omega

theorem toDigits_begins (n : Nat) : ∃ c u, Nat.toDigits 10 n = c :: u ∧ c.isDigit = true := by
  cases whole : Nat.toDigits 10 n with
  | nil => exact absurd whole Nat.toDigits_ne_nil
  | cons c u =>
    have member : c ∈ Nat.toDigits 10 n := whole ▸ List.mem_cons_self
    exact ⟨c, u, rfl, Nat.isDigit_of_mem_toDigits (by decide) (by decide) member⟩

theorem ne_of_isDigit {c x : Char} (digit : c.isDigit = true) (other : x.isDigit = false) : c ≠ x := by
  intro same
  rw [same, other] at digit
  cases digit

theorem readNumber_toDigits (n : Nat) {t : List Char} (apart : ∀ c ∈ t.head?, c.isDigit = false) :
    readNumber (Nat.toDigits 10 n ++ t) = some (n, t) := by
  have digits : ∀ c ∈ Nat.toDigits 10 n, c.isDigit = true := fun c member =>
    Nat.isDigit_of_mem_toDigits (by decide) (by decide) member
  have stops : t.takeWhile Char.isDigit = [] ∧ t.dropWhile Char.isDigit = t := by
    cases t with
    | nil => exact ⟨rfl, rfl⟩
    | cons c t =>
      have outside := apart c rfl
      exact ⟨List.takeWhile_cons_of_neg (by simp [outside]),
        List.dropWhile_cons_of_neg (by simp [outside])⟩
  have front : (Nat.toDigits 10 n ++ t).takeWhile Char.isDigit = Nat.toDigits 10 n := by
    rw [List.takeWhile_append_of_pos digits, stops.1, List.append_nil]
  have behind : (Nat.toDigits 10 n ++ t).dropWhile Char.isDigit = t := by
    rw [List.dropWhile_append_of_pos digits, stops.2]
  have formed : ¬ (Nat.toDigits 10 n = [] ∨
      ((Nat.toDigits 10 n).head? = some '0' ∧ Nat.toDigits 10 n ≠ ['0'])) := by
    intro bad
    rcases bad with nothing | ⟨zero, longer⟩
    · exact Nat.toDigits_ne_nil nothing
    · obtain ⟨u, whole⟩ := List.head?_eq_some_iff.1 zero
      rw [toDigits_eq_cons_zero whole] at whole
      exact longer whole
  unfold readNumber
  simp only [front, behind]
  rw [if_neg formed, Nat.ofDigitChars_ten_toDigits]

end Numbers

section Values

variable {c : Char} {t u : List Char} {n d : Nat}

theorem skip_of_not_space (outside : isSpace c = false) (t : List Char) : skip (c :: t) = c :: t :=
  List.dropWhile_cons_of_neg (by simp [outside])

theorem skip_newLine (d : Nat) (t : List Char) : skip (newLine d ++ t) = skip t := by
  apply List.dropWhile_append_of_pos
  intro c member
  rcases List.mem_cons.1 member with rfl | blank
  · rfl
  · rw [List.eq_of_mem_replicate blank]
    rfl

theorem toList_toString (n : Nat) : (toString n).toList = Nat.toDigits 10 n := by
  rw [Nat.toString_eq_ofList_toDigits, String.toList_ofList]

theorem print_begins (d : Nat) (j : Json) : ∃ c u, print d j = c :: u ∧ isSpace c = false ∧
    c ≠ ']' ∧ c ≠ '}' := by
  cases j with
  | null => exact ⟨'n', _, rfl, rfl, by decide, by decide⟩
  | bool b =>
    cases b with
    | true => exact ⟨'t', _, rfl, rfl, by decide, by decide⟩
    | false => exact ⟨'f', _, rfl, rfl, by decide, by decide⟩
  | number n =>
    obtain ⟨c, u, whole, digit⟩ := toDigits_begins n
    have apart {x : Char} (other : x.isDigit = false) : c ≠ x := ne_of_isDigit digit other
    rw [print, toList_toString]
    refine ⟨c, u, whole, ?_, apart rfl, apart rfl⟩
    simp [isSpace, apart (x := ' ') rfl, apart (x := '\t') rfl, apart (x := '\n') rfl,
      apart (x := '\r') rfl]
  | string s => exact ⟨'"', _, rfl, rfl, by decide, by decide⟩
  | array js => cases js <;> exact ⟨'[', _, rfl, rfl, by decide, by decide⟩
  | object ms => rcases ms with _ | ⟨⟨k, j⟩, ms⟩ <;> exact ⟨'{', _, rfl, rfl, by decide, by decide⟩

theorem skip_print (d : Nat) (j : Json) (t : List Char) : skip (print d j ++ t) = print d j ++ t := by
  obtain ⟨c, u, whole, outside, _⟩ := print_begins d j
  rw [whole, List.cons_append]
  exact skip_of_not_space outside _

theorem readValue_string (s : String) (t : List Char) :
    readValue (n + 1) (quote s.toList ++ t) = some (string s, t) := by
  have whole : quote s.toList ++ t = '"' :: (s.toList.flatMap escape ++ '"' :: t) := by
    simp [quote]
  rw [whole, readValue, if_pos rfl, readString_flatMap]
  rfl

theorem readValue_number (m : Nat) (apart : ∀ c ∈ t.head?, c.isDigit = false) :
    readValue (n + 1) (print d (number m) ++ t) = some (number m, t) := by
  have read := readNumber_toDigits m apart
  obtain ⟨c, u, whole, digit⟩ := toDigits_begins m
  have other {x : Char} (outside : x.isDigit = false) : c ≠ x := ne_of_isDigit digit outside
  rw [whole, List.cons_append] at read
  rw [print, toList_toString, whole, List.cons_append, readValue, if_neg (other rfl),
    if_neg (other rfl), if_neg (other rfl), if_neg (other rfl), if_neg (other rfl),
    if_neg (other rfl), read]
  rfl

theorem not_isDigit_printItems (d : Nat) (js : List Json) (t : List Char) :
    ∀ c ∈ (printItems d js ++ (newLine d ++ t)).head?, c.isDigit = false := by
  intro c first
  cases js with
  | nil =>
    obtain rfl := Option.some.inj first
    rfl
  | cons j js =>
    obtain rfl := Option.some.inj first
    rfl

theorem not_isDigit_printMembers (d : Nat) (ms : List (String × Json)) (t : List Char) :
    ∀ c ∈ (printMembers d ms ++ (newLine d ++ t)).head?, c.isDigit = false := by
  intro c first
  rcases ms with _ | ⟨⟨k, j⟩, ms⟩
  · obtain rfl := Option.some.inj first
    rfl
  · obtain rfl := Option.some.inj first
    rfl

/-- The text of a value is read as that value, whatever stands behind it. -/
def ReadsBack (j : Json) : Prop :=
  ∀ d n t, (∀ c ∈ t.head?, c.isDigit = false) → (print d j ++ t).length < n →
    readValue n (print d j ++ t) = some (j, t)

theorem readValue_array (more : (skip t).head? ≠ some ']') : readValue (n + 1) ('[' :: t) =
    (readValue n (skip t)).bind fun (j, t) =>
      (readItems n t).map fun (js, t) => (array (j :: js), t) := by
  rw [readValue, if_neg (by decide), if_pos rfl]
  split
  · rename_i closes
    exact absurd (congrArg List.head? closes) more
  · rfl

theorem readValue_object (more : (skip t).head? ≠ some '}') : readValue (n + 1) ('{' :: t) =
    (readMember n (skip t)).bind fun (m, t) =>
      (readMembers n t).map fun (ms, t) => (object (m :: ms), t) := by
  rw [readValue, if_neg (by decide), if_neg (by decide), if_pos rfl]
  split
  · rename_i closes
    exact absurd (congrArg List.head? closes) more
  · rfl

theorem readItems_close (closes : skip t = ']' :: u) : readItems (n + 1) t = some ([], u) := by
  rw [readItems.eq_def]
  simp only [closes]

theorem readItems_comma (goesOn : skip t = ',' :: u) : readItems (n + 1) t =
    (readValue n (skip u)).bind fun (j, t) => (readItems n t).map fun (js, t) => (j :: js, t) := by
  rw [readItems.eq_def]
  simp only [goesOn]

theorem readMembers_close (closes : skip t = '}' :: u) : readMembers (n + 1) t = some ([], u) := by
  rw [readMembers.eq_def]
  simp only [closes]

theorem readMembers_comma (goesOn : skip t = ',' :: u) : readMembers (n + 1) t =
    (readMember n (skip u)).bind fun (m, t) => (readMembers n t).map fun (ms, t) => (m :: ms, t) := by
  rw [readMembers.eq_def]
  simp only [goesOn]

theorem readItems_print {js : List Json} (items : ∀ j ∈ js, ReadsBack j)
    (fuel : (printItems d js ++ (newLine d ++ ']' :: t)).length < n) :
    readItems n (printItems d js ++ (newLine d ++ ']' :: t)) = some (js, t) := by
  induction js generalizing n with
  | nil =>
    obtain ⟨m, rfl⟩ := Nat.exists_eq_add_one_of_ne_zero (Nat.ne_zero_of_lt fuel)
    exact readItems_close ((skip_newLine d _).trans (skip_of_not_space rfl t))
  | cons j js ih =>
    obtain ⟨m, rfl⟩ := Nat.exists_eq_add_one_of_ne_zero (Nat.ne_zero_of_lt fuel)
    have whole : printItems d (j :: js) ++ (newLine d ++ ']' :: t) = ',' :: (newLine (d + 1) ++
        (print (d + 1) j ++ (printItems d js ++ (newLine d ++ ']' :: t)))) := by
      simp [printItems]
    rw [whole, List.length_cons, List.length_append, List.length_append] at fuel
    have first := items j List.mem_cons_self (d + 1) m _ (not_isDigit_printItems d js (']' :: t))
      (by rw [List.length_append]; omega)
    have later := ih (fun j member => items j (List.mem_cons_of_mem _ member)) (n := m) (by omega)
    rw [whole, readItems_comma (skip_of_not_space rfl _), skip_newLine, skip_print, first,
      Option.bind_some]
    dsimp only
    rw [later]
    rfl

theorem readMember_print {k : String} {j : Json} (value : ReadsBack j)
    (apart : ∀ c ∈ t.head?, c.isDigit = false)
    (fuel : (quote k.toList ++ ([':', ' '] ++ (print d j ++ t))).length < n) :
    readMember n (quote k.toList ++ ([':', ' '] ++ (print d j ++ t))) = some ((k, j), t) := by
  obtain ⟨m, rfl⟩ := Nat.exists_eq_add_one_of_ne_zero (Nat.ne_zero_of_lt fuel)
  have whole : quote k.toList ++ ([':', ' '] ++ (print d j ++ t)) =
      '"' :: (k.toList.flatMap escape ++ '"' :: ':' :: ' ' :: (print d j ++ t)) := by
    simp [quote]
  have colon (t : List Char) : skip (':' :: t) = ':' :: t := skip_of_not_space rfl t
  have space (t : List Char) : skip (' ' :: t) = skip t := List.dropWhile_cons_of_pos rfl
  rw [List.length_append, List.length_append] at fuel
  have between : [':', ' '].length = 2 := rfl
  have read := value d m t apart (by omega)
  rw [whole, readMember, readString_flatMap, Option.bind_some]
  simp only [colon]
  rw [space, skip_print, read]
  rfl

theorem readMembers_print {ms : List (String × Json)} (members : ∀ m ∈ ms, ReadsBack m.2)
    (fuel : (printMembers d ms ++ (newLine d ++ '}' :: t)).length < n) :
    readMembers n (printMembers d ms ++ (newLine d ++ '}' :: t)) = some (ms, t) := by
  induction ms generalizing n with
  | nil =>
    obtain ⟨m, rfl⟩ := Nat.exists_eq_add_one_of_ne_zero (Nat.ne_zero_of_lt fuel)
    exact readMembers_close ((skip_newLine d _).trans (skip_of_not_space rfl t))
  | cons member ms ih =>
    obtain ⟨k, j⟩ := member
    obtain ⟨m, rfl⟩ := Nat.exists_eq_add_one_of_ne_zero (Nat.ne_zero_of_lt fuel)
    have whole : printMembers d ((k, j) :: ms) ++ (newLine d ++ '}' :: t) = ',' :: (newLine (d + 1) ++
        (quote k.toList ++ ([':', ' '] ++
          (print (d + 1) j ++ (printMembers d ms ++ (newLine d ++ '}' :: t)))))) := by
      simp [printMembers]
    have opens (s t : List Char) : skip (quote s ++ t) = quote s ++ t := skip_of_not_space rfl _
    rw [whole, List.length_cons, List.length_append] at fuel
    have value : ReadsBack j := members (k, j) List.mem_cons_self
    have first := readMember_print (k := k) (d := d + 1) (n := m) value
      (not_isDigit_printMembers d ms ('}' :: t)) (by omega)
    rw [List.length_append, List.length_append, List.length_append] at fuel
    have later := ih (fun m member => members m (List.mem_cons_of_mem _ member)) (n := m) (by omega)
    rw [whole, readMembers_comma (skip_of_not_space rfl _), skip_newLine, opens, first,
      Option.bind_some]
    dsimp only
    rw [later]
    rfl

/-- What holds of a value if it holds of its parts holds of every value. -/
theorem induction_on {motive : Json → Prop} (j : Json) (null : motive null)
    (bool : ∀ b, motive (bool b)) (number : ∀ n, motive (number n)) (string : ∀ s, motive (string s))
    (array : ∀ js, (∀ j ∈ js, motive j) → motive (array js))
    (object : ∀ ms, (∀ m ∈ ms, motive m.2) → motive (object ms)) : motive j := by
  match j with
  | .null => exact null
  | .bool b => exact bool b
  | .number n => exact number n
  | .string s => exact string s
  | .array js =>
    exact array js fun j member => induction_on j null bool number string array object
  | .object ms =>
    exact object ms fun m member => induction_on m.2 null bool number string array object
termination_by sizeOf j
decreasing_by
  · have := List.sizeOf_lt_of_mem member
    simp_wf
    omega
  · have := List.sizeOf_lt_of_mem member
    obtain ⟨k, j⟩ := m
    simp_wf
    simp at this
    omega

theorem readsBack_array {js : List Json} (items : ∀ j ∈ js, ReadsBack j) : ReadsBack (array js) := by
  intro d n t _ fuel
  obtain ⟨m, rfl⟩ := Nat.exists_eq_add_one_of_ne_zero (Nat.ne_zero_of_lt fuel)
  cases js with
  | nil => rfl
  | cons j js =>
    have whole : print d (array (j :: js)) ++ t = '[' :: (newLine (d + 1) ++
        (print (d + 1) j ++ (printItems d js ++ (newLine d ++ ']' :: t)))) := by
      simp [print]
    rw [whole, List.length_cons, List.length_append] at fuel
    have first := items j List.mem_cons_self (d + 1) m _ (not_isDigit_printItems d js (']' :: t))
      (by omega)
    rw [List.length_append] at fuel
    have later := readItems_print (d := d) (t := t) (n := m)
      (fun j member => items j (List.mem_cons_of_mem _ member)) (by omega)
    rw [whole, readValue_array, skip_newLine, skip_print, first, Option.bind_some]
    · dsimp only
      rw [later]
      rfl
    · obtain ⟨c, u, begins, _, closes, _⟩ := print_begins (d + 1) j
      rw [skip_newLine, skip_print, begins]
      simpa using closes

theorem readsBack_object {ms : List (String × Json)} (members : ∀ m ∈ ms, ReadsBack m.2) :
    ReadsBack (object ms) := by
  intro d n t _ fuel
  obtain ⟨m, rfl⟩ := Nat.exists_eq_add_one_of_ne_zero (Nat.ne_zero_of_lt fuel)
  rcases ms with _ | ⟨⟨k, j⟩, ms⟩
  · rfl
  · have whole : print d (object ((k, j) :: ms)) ++ t = '{' :: (newLine (d + 1) ++
        (quote k.toList ++ ([':', ' '] ++
          (print (d + 1) j ++ (printMembers d ms ++ (newLine d ++ '}' :: t)))))) := by
      simp [print]
    have opens (s t : List Char) : skip (quote s ++ t) = quote s ++ t := skip_of_not_space rfl _
    rw [whole, List.length_cons, List.length_append] at fuel
    have value : ReadsBack j := members (k, j) List.mem_cons_self
    have first := readMember_print (k := k) (d := d + 1) (n := m) value
      (not_isDigit_printMembers d ms ('}' :: t)) (by omega)
    rw [List.length_append, List.length_append, List.length_append] at fuel
    have later := readMembers_print (d := d) (t := t) (n := m)
      (fun m member => members m (List.mem_cons_of_mem _ member)) (by omega)
    rw [whole, readValue_object, skip_newLine, opens, first, Option.bind_some]
    · dsimp only
      rw [later]
      rfl
    · rw [skip_newLine, opens]
      exact show some '"' ≠ some '}' by decide

theorem readsBack (j : Json) : ReadsBack j := by
  induction j using induction_on with
  | null =>
    intro d n t _ fuel
    obtain ⟨m, rfl⟩ := Nat.exists_eq_add_one_of_ne_zero (Nat.ne_zero_of_lt fuel)
    rfl
  | bool b =>
    intro d n t _ fuel
    obtain ⟨m, rfl⟩ := Nat.exists_eq_add_one_of_ne_zero (Nat.ne_zero_of_lt fuel)
    cases b <;> rfl
  | number k =>
    intro d n t apart fuel
    obtain ⟨m, rfl⟩ := Nat.exists_eq_add_one_of_ne_zero (Nat.ne_zero_of_lt fuel)
    exact readValue_number k apart
  | string s =>
    intro d n t _ fuel
    obtain ⟨m, rfl⟩ := Nat.exists_eq_add_one_of_ne_zero (Nat.ne_zero_of_lt fuel)
    exact readValue_string s t
  | array js ih => exact readsBack_array ih
  | object ms ih => exact readsBack_object ih

/-- The text of a value stands for that value. -/
theorem ofText?_render (j : Json) : ofText? j.render = some j := by
  have text : skip j.render.toList = print 0 j ++ [] := by
    have whole := skip_print 0 j []
    rw [List.append_nil] at whole ⊢
    rw [render, String.toList_ofList, whole]
  have fuel : (print 0 j ++ []).length < j.render.length + 1 := by
    rw [List.append_nil, render, String.length_ofList]
    exact Nat.lt_add_one _
  rw [ofText?, text, readsBack j 0 _ [] (by simp) fuel]
  rfl

end Values

end SourceSpecs.Json
