import Mathlib.Data.Nat.Digits.Defs
import SourceSpecs.Proofs.Trimming
import SourceSpecs.Proofs.WrittenForm
import SourceSpecs.SizeLimit
/-!
The size limit is given by a numeral, and each numeral has one value. What a numeral is is told by a
grammar: digits in base ten, single underscores between them, a sign in front, and padding around.
-/
namespace SourceSpecs.Text

def IsDigit (c : Char) (d : Nat) : Prop := d < 10 ∧ ∃ z ∈ zeros, c.toNat = z + d

theorem zeros_apart : ∀ a ∈ zeros, ∀ b ∈ zeros, a = b ∨ a + 10 ≤ b ∨ b + 10 ≤ a := by decide +kernel

theorem digit?_eq_some_iff {c : Char} {d : Nat} : digit? c = some d ↔ IsDigit c d := by
  constructor
  · intro read
    refine ⟨digit?_lt read, ?_⟩
    obtain ⟨z, found, value⟩ := Option.map_eq_some_iff.1 read
    have row := List.find?_some found
    rw [Bool.and_eq_true, decide_eq_true_eq, decide_eq_true_eq] at row
    exact ⟨z, List.mem_of_find?_eq_some found, by omega⟩
  · intro ⟨small, z, member, code⟩
    have some_row : (zeros.find? fun z => z ≤ c.toNat && c.toNat < z + 10).isSome := by
      rw [List.find?_isSome]
      refine ⟨z, member, ?_⟩
      rw [Bool.and_eq_true, decide_eq_true_eq, decide_eq_true_eq]
      omega
    obtain ⟨z', found⟩ := Option.isSome_iff_exists.1 some_row
    have row := List.find?_some found
    rw [Bool.and_eq_true, decide_eq_true_eq, decide_eq_true_eq] at row
    have apart := zeros_apart z member z' (List.mem_of_find?_eq_some found)
    rw [digit?, found, Option.map_some, Option.some_inj]
    omega

theorem IsDigit.not_isBlank {c : Char} {d : Nat} (digit : IsDigit c d) : isBlank c = false := by
  have apart : ∀ n ∈ Declaration.blankCodes, ∀ z ∈ zeros, n < z ∨ z + 10 ≤ n := by decide +kernel
  obtain ⟨small, z, member, code⟩ := digit
  refine Bool.eq_false_iff.2 ?_
  intro blank
  have := apart _ (Declaration.toNat_mem_blankCodes blank) z member
  omega

end SourceSpecs.Text

namespace SourceSpecs.SizeLimit

open Text

/-- Digits, with a single underscore between two of them or none. -/
inductive Digits : List Char → List Nat → Prop where
  | last {c : Char} {d : Nat} (digit : IsDigit c d) : Digits [c] [d]
  | next {c : Char} {d : Nat} {t : List Char} {ds : List Nat} (digit : IsDigit c d)
      (rest : Digits t ds) : Digits (c :: t) (d :: ds)
  | apart {c : Char} {d : Nat} {t : List Char} {ds : List Nat} (digit : IsDigit c d)
      (rest : Digits t ds) : Digits (c :: '_' :: t) (d :: ds)

inductive Numeral : List Char → Int → Prop where
  | bare {t : List Char} {ds : List Nat} (digits : Digits t ds) (few : ds.length ≤ 4300) :
      Numeral t (Nat.ofDigits 10 ds.reverse : Nat)
  | plus {t : List Char} {ds : List Nat} (digits : Digits t ds) (few : ds.length ≤ 4300) :
      Numeral ('+' :: t) (Nat.ofDigits 10 ds.reverse : Nat)
  | minus {t : List Char} {ds : List Nat} (digits : Digits t ds) (few : ds.length ≤ 4300) :
      Numeral ('-' :: t) (-(Nat.ofDigits 10 ds.reverse : Nat))

/-- A text is a numeral of this value between characters of the padding. -/
def Spells (padding : Char → Prop) (t : List Char) (z : Int) : Prop :=
  ∃ before body behind, t = before ++ body ++ behind ∧ (∀ x ∈ before ++ behind, padding x) ∧
    Numeral body z

def IsSeparator (c : Char) : Prop := 28 ≤ c.toNat ∧ c.toNat ≤ 31

variable {c : Char} {d : Nat} {t u : List Char} {ds : List Nat} {z : Int}

section Digits

theorem isDigit_ne (digit : IsDigit c d) {x : Char} (other : digit? x = none) : c ≠ x := by
  rintro rfl
  rw [digit?_eq_some_iff.2 digit] at other
  cases other

theorem group?_cons (c : Char) (t : List Char) :
    group? (c :: t) = (digit? c).bind fun d => (t.mapM digit?).map (d :: ·) := by
  rw [group?, if_neg (List.cons_ne_nil c t), List.mapM_cons]
  cases digit? c with
  | none => rfl
  | some d => cases t.mapM digit? <;> rfl

theorem digits?_of_pieces {piece : List Char} {more : List (List Char)}
    (parts : pieces '_' t = piece :: more) : digits? t =
      (group? piece).bind fun ds => ((more.mapM group?).map List.flatten).map (ds ++ ·) := by
  rw [digits?, parts, List.mapM_cons]
  cases group? piece with
  | none => rfl
  | some ds => cases more.mapM group? <;> rfl

theorem digits?_underscore (t : List Char) : digits? ('_' :: t) = none := by
  rw [digits?_of_pieces (pieces_mark '_' t)]
  rfl

theorem digits?_last (other : c ≠ '_') : digits? [c] = (digit? c).map ([·]) := by
  obtain ⟨piece, more, parts, longer⟩ := pieces_cons other []
  obtain ⟨rfl, rfl⟩ := List.cons.inj (parts : [[]] = piece :: more)
  rw [digits?_of_pieces longer, group?_cons]
  cases digit? c <;> rfl

theorem digits?_apart (other : c ≠ '_') (t : List Char) :
    digits? (c :: '_' :: t) = (digit? c).bind fun d => (digits? t).map (d :: ·) := by
  obtain ⟨piece, more, parts, longer⟩ := pieces_cons other ('_' :: t)
  rw [pieces_mark] at parts
  obtain ⟨rfl, rfl⟩ := List.cons.inj parts
  rw [digits?_of_pieces longer, group?_cons, digits?]
  cases digit? c <;> rfl

theorem digits?_next {c' : Char} (other : c ≠ '_') (other' : c' ≠ '_') (t : List Char) :
    digits? (c :: c' :: t) = (digit? c).bind fun d => (digits? (c' :: t)).map (d :: ·) := by
  obtain ⟨piece, more, parts, longer⟩ := pieces_cons other (c' :: t)
  obtain ⟨piece', more', _, longer'⟩ := pieces_cons other' t
  rw [longer'] at parts
  obtain ⟨rfl, rfl⟩ := List.cons.inj parts
  have group : group? (c' :: piece') = (c' :: piece').mapM digit? := if_neg (List.cons_ne_nil _ _)
  rw [digits?_of_pieces longer, digits?_of_pieces longer', group?_cons, group]
  cases digit? c with
  | none => rfl
  | some d =>
    cases (c' :: piece').mapM digit? with
    | none => rfl
    | some ds => cases (more'.mapM group?).map List.flatten <;> rfl

theorem Digits.first (digits : Digits t ds) : ∃ c d u, t = c :: u ∧ IsDigit c d := by
  cases digits with
  | last digit => exact ⟨_, _, _, rfl, digit⟩
  | next digit rest => exact ⟨_, _, _, rfl, digit⟩
  | apart digit rest => exact ⟨_, _, _, rfl, digit⟩

theorem Digits.final (digits : Digits t ds) : ∃ u c d, t = u ++ [c] ∧ IsDigit c d := by
  induction digits with
  | last digit => exact ⟨[], _, _, rfl, digit⟩
  | @next c d t ds digit rest ih =>
    obtain ⟨u, x, value, rfl, final⟩ := ih
    exact ⟨c :: u, x, value, rfl, final⟩
  | @apart c d t ds digit rest ih =>
    obtain ⟨u, x, value, rfl, final⟩ := ih
    exact ⟨c :: '_' :: u, x, value, rfl, final⟩

theorem digits?_of_digits (digits : Digits t ds) : digits? t = some ds := by
  have underscore : digit? '_' = none := by decide +kernel
  induction digits with
  | last digit =>
    rw [digits?_last (isDigit_ne digit underscore), digit?_eq_some_iff.2 digit]
    rfl
  | next digit rest ih =>
    obtain ⟨c', d', t', rfl, digit'⟩ := rest.first
    rw [digits?_next (isDigit_ne digit underscore) (isDigit_ne digit' underscore),
      digit?_eq_some_iff.2 digit, ih]
    rfl
  | apart digit rest ih =>
    rw [digits?_apart (isDigit_ne digit underscore), digit?_eq_some_iff.2 digit, ih]
    rfl

theorem digits_of_digits? (t : List Char) : ∀ ds, digits? t = some ds → Digits t ds := by
  -- Behind an underscore, the induction goes on two characters further.
  induction t using List.twoStepInduction with
  | nil =>
    intro ds read
    cases read
  | singleton c =>
    intro ds read
    by_cases other : c = '_'
    · rw [other, digits?_underscore] at read
      cases read
    rw [digits?_last other, Option.map_eq_some_iff] at read
    obtain ⟨d, digit, rfl⟩ := read
    exact .last (digit?_eq_some_iff.1 digit)
  | cons_cons c c' t further next =>
    intro ds read
    by_cases other : c = '_'
    · rw [other, digits?_underscore] at read
      cases read
    by_cases underscore : c' = '_'
    · rw [underscore, digits?_apart other, Option.bind_eq_some_iff] at read
      obtain ⟨d, digit, behind⟩ := read
      obtain ⟨later, rest, rfl⟩ := Option.map_eq_some_iff.1 behind
      rw [underscore]
      exact .apart (digit?_eq_some_iff.1 digit) (further later rest)
    · rw [digits?_next other underscore, Option.bind_eq_some_iff] at read
      obtain ⟨d, digit, behind⟩ := read
      obtain ⟨later, rest, rfl⟩ := Option.map_eq_some_iff.1 behind
      exact .next (digit?_eq_some_iff.1 digit) (next c' later rest)

theorem digits?_eq_some_iff : digits? t = some ds ↔ Digits t ds :=
  ⟨digits_of_digits? t ds, digits?_of_digits⟩

end Digits

theorem natOfDigits_eq (ds : List Nat) : natOfDigits ds = Nat.ofDigits 10 ds.reverse := by
  rw [natOfDigits, Nat.ofDigits_eq_foldr, List.foldr_reverse]
  simp only [Nat.cast_id, Nat.add_comm]

theorem magnitude?_eq_some_iff {n : Nat} : magnitude? t = some n ↔
    ∃ ds, Digits t ds ∧ ds.length ≤ 4300 ∧ Nat.ofDigits 10 ds.reverse = n := by
  rw [magnitude?, Option.bind_eq_some_iff]
  refine exists_congr fun ds => ?_
  rw [digits?_eq_some_iff, natOfDigits_eq, Option.ite_none_right_eq_some, Option.some_inj]
  rfl

theorem signed?_bare (plus : t.head? ≠ some '+') (minus : t.head? ≠ some '-') :
    signed? t = (magnitude? t).map Int.ofNat := by
  unfold signed?
  split
  · exact absurd rfl plus
  · exact absurd rfl minus
  · rfl

theorem signed?_of_numeral (numeral : Numeral t z) : signed? t = some z := by
  cases numeral with
  | bare digits few =>
    obtain ⟨c, d, u, rfl, digit⟩ := digits.first
    have first {x : Char} (sign : digit? x = none) : (c :: u).head? ≠ some x := by
      rw [List.head?_cons, Ne, Option.some_inj]
      exact isDigit_ne digit sign
    rw [signed?_bare (first (by decide +kernel)) (first (by decide +kernel)),
      magnitude?_eq_some_iff.2 ⟨_, digits, few, rfl⟩]
    rfl
  | plus digits few =>
    rw [signed?, magnitude?_eq_some_iff.2 ⟨_, digits, few, rfl⟩]
    rfl
  | minus digits few =>
    rw [signed?, magnitude?_eq_some_iff.2 ⟨_, digits, few, rfl⟩]
    rfl

theorem numeral_of_signed? (read : signed? t = some z) : Numeral t z := by
  unfold signed? at read
  split at read
  · obtain ⟨n, magnitude, rfl⟩ := Option.map_eq_some_iff.1 read
    obtain ⟨ds, digits, few, rfl⟩ := magnitude?_eq_some_iff.1 magnitude
    exact .plus digits few
  · obtain ⟨n, magnitude, rfl⟩ := Option.map_eq_some_iff.1 read
    obtain ⟨ds, digits, few, rfl⟩ := magnitude?_eq_some_iff.1 magnitude
    exact .minus digits few
  · obtain ⟨n, magnitude, rfl⟩ := Option.map_eq_some_iff.1 read
    obtain ⟨ds, digits, few, rfl⟩ := magnitude?_eq_some_iff.1 magnitude
    exact .bare digits few

section Padding

theorem isPadding_iff : isPadding c = true ↔ isBlank c = true ∧ ¬ IsSeparator c := by
  simp only [isPadding, IsSeparator, Bool.and_eq_true, Bool.not_eq_true', ← Bool.not_eq_true,
    decide_eq_true_eq]

theorem not_isPadding (mark : isBlank c = false) : isPadding c = false := by
  rw [isPadding, mark, Bool.false_and]

theorem Numeral.trimmed (numeral : Numeral t z) : Trimmed isPadding t := by
  cases numeral with
  | bare digits few =>
    obtain ⟨c, d, u, first, digit⟩ := digits.first
    obtain ⟨u', c', d', final, digit'⟩ := digits.final
    exact ⟨⟨c, u, first, not_isPadding digit.not_isBlank⟩, u', c', final,
      not_isPadding digit'.not_isBlank⟩
  | plus digits few =>
    obtain ⟨u, c, d, rfl, digit⟩ := digits.final
    exact ⟨⟨'+', _, rfl, by decide⟩, '+' :: u, c, rfl, not_isPadding digit.not_isBlank⟩
  | minus digits few =>
    obtain ⟨u, c, d, rfl, digit⟩ := digits.final
    exact ⟨⟨'-', _, rfl, by decide⟩, '-' :: u, c, rfl, not_isPadding digit.not_isBlank⟩

theorem ofText?_eq_some_iff {v : String} : ofText? v = some z ↔
    Spells (fun x => isBlank x = true ∧ ¬ IsSeparator x) v.toList z := by
  constructor
  · intro read
    obtain ⟨before, behind, parts, padding⟩ := exists_around_trimBy isPadding v.toList
    exact ⟨before, _, behind, parts, fun x inside => isPadding_iff.1 (padding x inside),
      numeral_of_signed? read⟩
  · intro ⟨before, body, behind, parts, padding, numeral⟩
    have stripped : strip v.toList = body := by
      rw [parts]
      exact trimBy_append (fun x inside => isPadding_iff.2 (padding x inside)) numeral.trimmed
    rw [ofText?, stripped]
    exact signed?_of_numeral numeral

end Padding

/-- The limit is the value of the numeral that the variable holds, with padding around it. Where the
    variable is not set, or holds no numeral, it is the standard one. -/
theorem ofEnvironment_exact (e : Environment) :
    (∀ v z, e.value? "IPCSPEC_MAX_FILE_SIZE" = some v →
      Spells (fun x => isBlank x = true ∧ ¬ IsSeparator x) v.toList z → ofEnvironment e = z) ∧
    (∀ v, e.value? "IPCSPEC_MAX_FILE_SIZE" = some v →
      (∀ z, ¬ Spells (fun x => isBlank x = true ∧ ¬ IsSeparator x) v.toList z) →
      ofEnvironment e = 512000) ∧
    (e.value? "IPCSPEC_MAX_FILE_SIZE" = none → ofEnvironment e = 512000) ∧
    (e.value? "IPCSPEC_MAX_FILE_SIZE" = some "" → ofEnvironment e = 512000) := by
  have limit : ofEnvironment e =
      ((e.value? "IPCSPEC_MAX_FILE_SIZE").bind ofText?).getD 512000 := rfl
  refine ⟨?_, ?_, ?_, ?_⟩
  · intro v z held spells
    rw [limit, held, Option.bind_some, ofText?_eq_some_iff.2 spells]
    rfl
  · intro v held no_numeral
    have unread : ofText? v = none := by
      rw [Option.eq_none_iff_forall_ne_some]
      intro z read
      exact no_numeral z (ofText?_eq_some_iff.1 read)
    rw [limit, held, Option.bind_some, unread]
    rfl
  · intro unset
    rw [limit, unset]
    rfl
  · intro held
    rw [limit, held]
    rfl

def setTo (limit : String) : Environment where
  values := [("IPCSPEC_MAX_FILE_SIZE", limit)]

theorem ofEnvironment_underscores :
    ofEnvironment (setTo "\u00A0-1_\u0662\n") = -12 ∧ ofEnvironment (setTo "1__2") = 512000 := by
  have spells : ofText? "\u00A0-1_\u0662\n" = some (-12) := by decide +kernel
  have unread : ofText? "1__2" = none := by decide +kernel
  constructor
  · exact (ofEnvironment_exact (setTo _)).1 _ _ rfl (ofText?_eq_some_iff.1 spells)
  · refine (ofEnvironment_exact (setTo _)).2.1 _ rfl ?_
    intro z numeral
    rw [ofText?_eq_some_iff.2 numeral] at unread
    cases unread

/-- A separator in front of wide digits keeps the numeral from being read. It would be padding, if it
    counted as such in a text that does not keep to ASCII. -/
theorem separator_before_wideDigits :
    ¬ ∀ (e : Environment) (v : String) (z : Int), e.value? "IPCSPEC_MAX_FILE_SIZE" = some v →
      Spells (fun x => isBlank x = true ∧ ((∀ y ∈ v.toList, y.toNat < 128) → ¬ IsSeparator x))
        v.toList z → ofEnvironment e = z := by
  intro exact
  have spells : Spells (fun x => isBlank x = true ∧
      ((∀ y ∈ "\u001C\uFF11\uFF12".toList, y.toNat < 128) → ¬ IsSeparator x))
      "\u001C\uFF11\uFF12".toList 12 := by
    refine ⟨['\u001C'], ['\uFF11', '\uFF12'], [], by decide, ?_, ?_⟩
    · intro x inside
      obtain rfl := List.mem_singleton.1 inside
      exact ⟨by decide, fun ascii => absurd (ascii '\uFF11' (by decide)) (by decide)⟩
    · exact numeral_of_signed? (by decide +kernel)
  have limit := exact (setTo "\u001C\uFF11\uFF12") _ 12 rfl spells
  have standard : ofEnvironment (setTo "\u001C\uFF11\uFF12") = 512000 := by decide +kernel
  rw [standard] at limit
  cases limit

end SourceSpecs.SizeLimit
