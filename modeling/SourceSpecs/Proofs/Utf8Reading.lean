import Mathlib.Algebra.Group.Nat.Defs
import SourceSpecs.Text.Utf8
/-!
What bytes are read as. The bytes of a character are read as that character. Where no character
stands, as many bytes as could open one are read as one replacement character, and where none could,
a single byte is.
-/
namespace SourceSpecs.Text

def OpensCharacter (front : List UInt8) : Prop := ∃ c, front <+: String.utf8EncodeChar c

/-- A maximal part of a broken sequence, and the bytes behind it. -/
structure Broken (part rest : List UInt8) : Prop where
  no_character : ∀ c, ¬ String.utf8EncodeChar c <+: part ++ rest
  some_byte : part ≠ []
  opens : OpensCharacter part ∨ part.length = 1
  longest : ∀ front, front <+: part ++ rest → OpensCharacter front → front.length ≤ part.length

/-- The text that bytes stand for. -/
inductive Decodes : List UInt8 → List Char → Prop where
  | nil : Decodes [] []
  | char {bytes : List UInt8} {t : List Char} (c : Char) (rest : Decodes bytes t) :
      Decodes (String.utf8EncodeChar c ++ bytes) (c :: t)
  | broken {part bytes : List UInt8} {t : List Char} (here : Broken part bytes)
      (rest : Decodes bytes t) : Decodes (part ++ bytes) ('\uFFFD' :: t)

namespace Utf8

def Pending.Fits (p : Pending) (b : UInt8) : Prop := p.low ≤ b ∧ b ≤ p.high

def Pending.bitsWith (p : Pending) (b : UInt8) : Nat := p.bits * 64 + (b.toNat - 0x80)

def Pending.after (p : Pending) (b : UInt8) : Pending := ⟨p.need - 1, p.bitsWith b, 0x80, 0xBF⟩

/-- The bytes that a sequence under way goes on with up to its end, and the character it makes. -/
inductive Completes : Pending → List UInt8 → Char → Prop where
  | last {p : Pending} {b : UInt8} (fits : p.Fits b) (need : p.need ≤ 1) :
      Completes p [b] (Char.ofNat (p.bitsWith b))
  | more {p : Pending} {b : UInt8} {v : List UInt8} {c : Char} (fits : p.Fits b) (need : 1 < p.need)
      (rest : Completes (p.after b) v c) : Completes p (b :: v) c

section Step

variable {p : Pending} {b : UInt8}

theorem step_last (fits : p.Fits b) (need : p.need ≤ 1) :
    step (some p) b = ([Char.ofNat (p.bitsWith b)], none) := by
  rw [step]
  exact (if_pos fits).trans (if_pos need)

theorem step_more (fits : p.Fits b) (need : 1 < p.need) :
    step (some p) b = ([], some (p.after b)) := by
  rw [step]
  exact (if_pos fits).trans (if_neg (Nat.not_le.2 need))

theorem step_misfit (misfit : ¬ p.Fits b) :
    step (some p) b = (replacement :: (start b).1, (start b).2) := by
  rw [step]
  exact if_neg misfit

theorem exists_completes (range : p.low ≤ p.high) : ∃ v c, Completes p v c := by
  induction need : p.need using Nat.strongRecOn generalizing p with
  | ind n ih =>
    have fits : p.Fits p.low := ⟨UInt8.le_refl _, range⟩
    by_cases last : p.need ≤ 1
    · exact ⟨_, _, .last fits last⟩
    · have more : 1 < p.need := by omega
      have fewer : (p.after p.low).need < n := by
        change p.need - 1 < n
        omega
      have range' : (p.after p.low).low ≤ (p.after p.low).high := show (0x80 : UInt8) ≤ 0xBF by decide
      obtain ⟨v, c, rest⟩ := ih _ fewer range' rfl
      exact ⟨_, c, .more fits more rest⟩

end Step

def tail : Nat → Nat → List Nat
  | 0, _ => []
  | k + 1, n => (n / 64 ^ k % 64 + 0x80) :: tail k n

theorem completes_iff {k bits : Nat} {low high : UInt8} {v : List UInt8} {c : Char}
    (least : 0x80 ≤ low.toNat) (most : high.toNat ≤ 0xBF) :
    Completes ⟨k + 1, bits, low, high⟩ v c ↔ ∃ n, c = Char.ofNat n ∧ n / 64 ^ (k + 1) = bits ∧
      (low.toNat ≤ n / 64 ^ k % 64 + 0x80 ∧ n / 64 ^ k % 64 + 0x80 ≤ high.toNat) ∧
      v.map UInt8.toNat = tail (k + 1) n := by
  have shorter (n k : Nat) : n / 64 ^ (k + 1) = n / 64 ^ k / 64 := by
    rw [Nat.pow_succ, Nat.div_div_eq_div_mul]
  induction k generalizing bits low high v with
  | zero =>
    simp only [shorter, Nat.pow_zero, Nat.div_one, tail]
    constructor
    · intro h
      cases h with
      | @last _ x fits need =>
        have lower : low.toNat ≤ x.toNat := fits.1
        have upper : x.toNat ≤ high.toNat := fits.2
        have number : (bits * 64 + (x.toNat - 0x80)) % 64 + 0x80 = x.toNat := by omega
        refine ⟨bits * 64 + (x.toNat - 0x80), rfl, by omega, ?_, ?_⟩
        · rw [number]
          exact ⟨lower, upper⟩
        · rw [number, List.map_singleton]
      | more fits need rest => exact absurd need (Nat.lt_irrefl 1)
    · intro ⟨n, value, front, range, whole⟩
      obtain ⟨x, rfl, number⟩ := List.map_eq_singleton_iff.1 whole
      have fits : Pending.Fits ⟨1, bits, low, high⟩ x := by
        rw [← number] at range
        exact range
      have same : n = bits * 64 + (x.toNat - 0x80) := by omega
      rw [value, same]
      exact .last fits (Nat.le_refl 1)
  | succ k ih =>
    have later (x : UInt8) (w : List UInt8) := @ih (bits * 64 + (x.toNat - 0x80)) 0x80 0xBF w
      (Nat.le_refl 0x80) (Nat.le_refl 0xBF)
    change _ ↔ ∃ n, _ ∧ _ ∧ _ ∧ _ = (n / 64 ^ (k + 1) % 64 + 0x80) :: tail (k + 1) n
    constructor
    · intro h
      cases h with
      | last fits need =>
        change k + 1 + 1 ≤ 1 at need
        omega
      | @more _ x w _ fits need rest =>
        have lower : low.toNat ≤ x.toNat := fits.1
        have upper : x.toNat ≤ high.toNat := fits.2
        obtain ⟨n, value, front, _, whole⟩ := (later x w).1 rest
        have number : n / 64 ^ (k + 1) % 64 + 0x80 = x.toNat := by omega
        refine ⟨n, value, ?_, ?_, ?_⟩
        · rw [shorter]
          omega
        · rw [number]
          exact ⟨lower, upper⟩
        · rw [List.map_cons, whole, number]
    · intro ⟨n, value, front, range, whole⟩
      obtain ⟨x, w, rfl, number, rest⟩ := List.map_eq_cons_iff.1 whole
      have fits : Pending.Fits ⟨k + 2, bits, low, high⟩ x := by
        rw [← number] at range
        exact range
      rw [shorter] at front
      refine .more fits (Nat.lt_add_left k (Nat.lt_add_one 1)) ((later x w).2 ⟨n, value, ?_, ?_, rest⟩)
      · omega
      · change 0x80 ≤ _ ∧ _ ≤ 0xBF
        omega

/-- Some bytes of a sequence under way. It goes on as the characters do that these bytes open. -/
structure Reaches (part : List UInt8) (p : Pending) : Prop where
  some_byte : part ≠ []
  range : p.low ≤ p.high
  completes : ∀ c v, String.utf8EncodeChar c = part ++ v ↔ Completes p v c

section Start

variable {b : UInt8} {v : List UInt8} {c : Char}

def Leads (n b k : Nat) : Prop :=
  n < 0x80 ∧ b = n ∧ k = 0 ∨
  0x80 ≤ n ∧ n < 0x800 ∧ b = n / 64 + 0xC0 ∧ k = 1 ∨
  0x800 ≤ n ∧ n < 0x10000 ∧ b = n / 4096 + 0xE0 ∧ k = 2 ∨
  0x10000 ≤ n ∧ b = n / 262144 + 0xF0 ∧ k = 3

theorem exists_leads (n : Nat) : ∃ b k, Leads n b k := by
  unfold Leads
  by_cases one : n < 0x80
  · exact ⟨_, 0, Or.inl ⟨one, rfl, rfl⟩⟩
  by_cases two : n < 0x800
  · exact ⟨_, 1, Or.inr (Or.inl ⟨by omega, two, rfl, rfl⟩)⟩
  by_cases three : n < 0x10000
  · exact ⟨_, 2, Or.inr (Or.inr (Or.inl ⟨by omega, three, rfl, rfl⟩))⟩
  · exact ⟨_, 3, Or.inr (Or.inr (Or.inr ⟨by omega, rfl, rfl⟩))⟩

theorem map_toNat_encode {n k : Nat} (leads : Leads c.toNat n k) :
    (String.utf8EncodeChar c).map UInt8.toNat = n :: tail k c.toNat := by
  have valid : c.toNat < 0xD800 ∨ 0xDFFF < c.toNat ∧ c.toNat < 0x110000 := c.valid
  have number : c.val.toNat = c.toNat := rfl
  unfold String.utf8EncodeChar
  simp only [number]
  rcases leads with ⟨h, rfl, rfl⟩ | ⟨h, h', rfl, rfl⟩ | ⟨h, h', rfl, rfl⟩ | ⟨h, rfl, rfl⟩
  · rw [if_pos (by omega)]
    simp only [List.map_cons, List.map_nil, UInt8.toNat_ofNat', tail, List.cons.injEq, and_true]
    omega
  · rw [if_neg (by omega), if_pos (by omega)]
    simp only [List.map_cons, List.map_nil, UInt8.toNat_ofNat', tail, List.cons.injEq, and_true]
    omega
  · rw [if_neg (by omega), if_neg (by omega), if_pos (by omega)]
    simp only [List.map_cons, List.map_nil, UInt8.toNat_ofNat', tail, List.cons.injEq, and_true]
    omega
  · rw [if_neg (by omega), if_neg (by omega), if_neg (by omega)]
    simp only [List.map_cons, List.map_nil, UInt8.toNat_ofNat', tail, List.cons.injEq, and_true]
    omega

theorem encode_eq_cons_iff : String.utf8EncodeChar c = b :: v ↔
    ∃ k, Leads c.toNat b.toNat k ∧ v.map UInt8.toNat = tail k c.toNat := by
  have apart : (String.utf8EncodeChar c).map UInt8.toNat = (b :: v).map UInt8.toNat ↔
      String.utf8EncodeChar c = b :: v :=
    List.map_inj_right fun x y same => UInt8.toNat_inj.1 same
  rw [← apart, List.map_cons]
  constructor
  · intro whole
    obtain ⟨n, k, leads⟩ := exists_leads c.toNat
    rw [map_toNat_encode leads] at whole
    obtain ⟨rfl, rest⟩ := List.cons.inj whole
    exact ⟨k, leads, rest.symm⟩
  · intro ⟨k, leads, rest⟩
    rw [map_toNat_encode leads, rest]

theorem toNat_ofNat_of_valid {n : Nat} (valid : n.isValidChar) : (Char.ofNat n).toNat = n := by
  rw [Char.ofNat, dif_pos valid]
  rfl

/-- A first byte and the range of the second one leave just the characters that there are. -/
theorem reaches_of_leads {k bits : Nat} {low high : UInt8} (least : 0x80 ≤ low.toNat)
    (most : high.toNat ≤ 0xBF) (range : low.toNat ≤ high.toNat)
    (same : ∀ n j, n.isValidChar ∧ Leads n b.toNat j ↔ j = k + 1 ∧ n / 64 ^ (k + 1) = bits ∧
      low.toNat ≤ n / 64 ^ k % 64 + 0x80 ∧ n / 64 ^ k % 64 + 0x80 ≤ high.toNat) :
    Reaches [b] ⟨k + 1, bits, low, high⟩ := by
  refine ⟨List.cons_ne_nil b [], UInt8.le_iff_toNat_le.2 range, ?_⟩
  intro c v
  rw [List.singleton_append, encode_eq_cons_iff, completes_iff least most]
  constructor
  · intro ⟨j, leads, whole⟩
    obtain ⟨rfl, front, second⟩ := (same c.toNat j).1 ⟨c.valid, leads⟩
    exact ⟨c.toNat, (Char.ofNat_toNat c).symm, front, second, whole⟩
  · intro ⟨n, value, front, second, whole⟩
    obtain ⟨valid, leads⟩ := (same n (k + 1)).2 ⟨rfl, front, second⟩
    have number : c.toNat = n := by rw [value, toNat_ofNat_of_valid valid]
    rw [number]
    exact ⟨k + 1, leads, whole⟩

theorem reaches_two (least : 0xC2 ≤ b.toNat) (most : b.toNat < 0xE0) :
    Reaches [b] ⟨1, b.toNat - 0xC0, 0x80, 0xBF⟩ := by
  apply reaches_of_leads (by decide) (by decide) (by decide)
  intro n j
  change _ ↔ j = 1 ∧ n / 64 = _ ∧ 0x80 ≤ n / 1 % 64 + 0x80 ∧ n / 1 % 64 + 0x80 ≤ 0xBF
  unfold Leads Nat.isValidChar
  omega

theorem reaches_three {low high : UInt8} (least : 0xE0 ≤ b.toNat) (most : b.toNat < 0xF0)
    (lowest : b.toNat = 0xE0 ∧ low.toNat = 0xA0 ∨ b.toNat ≠ 0xE0 ∧ low.toNat = 0x80)
    (highest : b.toNat = 0xED ∧ high.toNat = 0x9F ∨ b.toNat ≠ 0xED ∧ high.toNat = 0xBF) :
    Reaches [b] ⟨2, b.toNat - 0xE0, low, high⟩ := by
  apply reaches_of_leads (by omega) (by omega) (by omega)
  intro n j
  change _ ↔ j = 2 ∧ n / 4096 = _ ∧ _ ≤ n / 64 % 64 + 0x80 ∧ n / 64 % 64 + 0x80 ≤ _
  unfold Leads Nat.isValidChar
  omega

theorem reaches_four {low high : UInt8} (least : 0xF0 ≤ b.toNat) (most : b.toNat < 0xF5)
    (lowest : b.toNat = 0xF0 ∧ low.toNat = 0x90 ∨ b.toNat ≠ 0xF0 ∧ low.toNat = 0x80)
    (highest : b.toNat = 0xF4 ∧ high.toNat = 0x8F ∨ b.toNat ≠ 0xF4 ∧ high.toNat = 0xBF) :
    Reaches [b] ⟨3, b.toNat - 0xF0, low, high⟩ := by
  apply reaches_of_leads (by omega) (by omega) (by omega)
  intro n j
  change _ ↔ j = 3 ∧ n / 262144 = _ ∧ _ ≤ n / 4096 % 64 + 0x80 ∧ n / 4096 % 64 + 0x80 ≤ _
  unfold Leads Nat.isValidChar
  omega

theorem encode_one (small : b.toNat < 0x80) :
    String.utf8EncodeChar (Char.ofNat b.toNat) = [b] := by
  have number := toNat_ofNat_of_valid (n := b.toNat) (Or.inl (by omega))
  refine encode_eq_cons_iff.2 ⟨0, ?_, rfl⟩
  rw [number]
  exact Or.inl ⟨small, rfl, rfl⟩

theorem encode_ne (outside : 0x80 ≤ b.toNat ∧ b.toNat < 0xC2 ∨ 0xF5 ≤ b.toNat) :
    String.utf8EncodeChar c ≠ b :: v := by
  intro whole
  obtain ⟨k, leads, _⟩ := encode_eq_cons_iff.1 whole
  have valid : c.toNat < 0xD800 ∨ 0xDFFF < c.toNat ∧ c.toNat < 0x110000 := c.valid
  unfold Leads at leads
  omega

theorem start_cases (b : UInt8) :
    (∃ c, String.utf8EncodeChar c = [b] ∧ start b = ([c], none)) ∨
    ((∀ c v, String.utf8EncodeChar c ≠ b :: v) ∧ start b = ([replacement], none)) ∨
    ∃ p, Reaches [b] p ∧ start b = ([], some p) := by
  have below (n : UInt8) : b < n ↔ b.toNat < n.toNat := UInt8.lt_iff_toNat_lt
  have equal (n : UInt8) : b = n ↔ b.toNat = n.toNat := UInt8.toNat_inj.symm
  have either {p : Prop} [Decidable p] (x y : UInt8) :
      p ∧ (if p then x else y).toNat = x.toNat ∨ ¬ p ∧ (if p then x else y).toNat = y.toNat := by
    by_cases h : p
    · exact Or.inl ⟨h, by rw [if_pos h]⟩
    · exact Or.inr ⟨h, by rw [if_neg h]⟩
  unfold start
  simp only [below, equal]
  split
  · rename_i small
    exact Or.inl ⟨_, encode_one small, rfl⟩
  split
  · rename_i one two
    exact Or.inr (Or.inl ⟨fun c v => encode_ne (Or.inl ⟨Nat.not_lt.1 one, two⟩), rfl⟩)
  split
  · rename_i one two three
    exact Or.inr (Or.inr ⟨_, reaches_two (Nat.not_lt.1 two) three, rfl⟩)
  split
  · rename_i one two three four
    exact Or.inr (Or.inr ⟨_, reaches_three (Nat.not_lt.1 three) four (either 0xA0 0x80)
      (either 0x9F 0xBF), rfl⟩)
  split
  · rename_i one two three four five
    exact Or.inr (Or.inr ⟨_, reaches_four (Nat.not_lt.1 four) five (either 0x90 0x80)
      (either 0x8F 0xBF), rfl⟩)
  · rename_i one two three four five
    exact Or.inr (Or.inl ⟨fun c v => encode_ne (Or.inr (Nat.not_lt.1 five)), rfl⟩)

end Start

/-- What is read of bytes where a sequence may be under way. -/
def decodeFrom : Option Pending → List UInt8 → List Char
  | none, [] => []
  | some _, [] => [replacement]
  | pending, b :: bytes => (step pending b).1 ++ decodeFrom (step pending b).2 bytes

theorem finish_foldl_push (read : List Char) (pending : Option Pending) (bytes : List UInt8) :
    (bytes.foldl Reading.push ⟨read, pending⟩).finish = read.reverse ++ decodeFrom pending bytes := by
  induction bytes generalizing read pending with
  | nil =>
    cases pending with
    | none => exact (List.append_nil _).symm
    | some p => exact List.reverse_cons
  | cons b bytes ih =>
    rw [List.foldl_cons, Reading.push, ih, List.reverse_append, List.reverse_reverse, List.append_assoc]
    cases pending <;> rfl

theorem decodeUtf8_eq_decodeFrom (bytes : List UInt8) : decodeUtf8 bytes = decodeFrom none bytes :=
  finish_foldl_push [] none bytes

end Utf8

open Utf8

/-- The bytes of a character are not the front of another's. -/
theorem eq_of_encode_append {c c' : Char} {v : List UInt8}
    (same : String.utf8EncodeChar c ++ v = String.utf8EncodeChar c') : c = c' := by
  have first := ByteArray.utf8DecodeChar?_utf8EncodeChar_append (b := v.toByteArray) (c := c)
  have whole := ByteArray.utf8DecodeChar?_utf8EncodeChar_append (b := ByteArray.empty) (c := c')
  rw [ByteArray.append_empty, ← same, List.toByteArray_append, first] at whole
  exact Option.some.inj whole

theorem encode_ne_nil (c : Char) : String.utf8EncodeChar c ≠ [] := by
  intro nothing
  have length := congrArg List.length nothing
  rw [String.length_utf8EncodeChar] at length
  exact absurd length (Nat.ne_of_gt c.utf8Size_pos)

section Broken

variable {part bytes : List UInt8} {p : Pending} {b : UInt8}

theorem opens_of_reaches (h : Reaches part p) : OpensCharacter part := by
  obtain ⟨v, c, done⟩ := exists_completes h.range
  exact ⟨c, v, ((h.completes c v).2 done).symm⟩

theorem reaches_more (h : Reaches part p) (fits : p.Fits b) (need : 1 < p.need) :
    Reaches (part ++ [b]) (p.after b) := by
  refine ⟨by simp, show (0x80 : UInt8) ≤ 0xBF by decide, ?_⟩
  intro c v
  rw [List.append_assoc, h.completes]
  constructor
  · intro done
    cases done with
    | last _ last => exact absurd need (Nat.not_lt.2 last)
    | more _ _ rest => exact rest
  · intro done
    exact .more fits need done

theorem not_opens_of_misfit (h : Reaches part p) (misfit : ¬ p.Fits b) :
    ¬ OpensCharacter (part ++ [b]) := by
  intro ⟨c, v, whole⟩
  rw [List.append_assoc, eq_comm, h.completes] at whole
  cases whole with
  | last fits _ => exact misfit fits
  | more fits _ _ => exact misfit fits

theorem broken_of_reaches (h : Reaches part p) (misfit : ∀ b ∈ bytes.head?, ¬ p.Fits b) :
    Broken part bytes := by
  have longest : ∀ front, front <+: part ++ bytes → OpensCharacter front →
      front.length ≤ part.length := by
    intro front stands opens
    refine Nat.not_lt.1 ?_
    intro longer
    cases bytes with
    | nil =>
      rw [List.append_nil] at stands
      exact absurd longer (Nat.not_lt.2 stands.length_le)
    | cons b bytes =>
      have next : part ++ [b] <+: part ++ b :: bytes := ⟨bytes, by rw [List.append_assoc]; rfl⟩
      have within : part ++ [b] <+: front := by
        apply List.prefix_of_prefix_length_le next stands
        rw [List.length_append, List.length_singleton]
        omega
      obtain ⟨c, front_of⟩ := opens
      exact not_opens_of_misfit h (misfit b rfl) ⟨c, within.trans front_of⟩
  refine ⟨?_, h.some_byte, Or.inl (opens_of_reaches h), longest⟩
  intro c stands
  have within : String.utf8EncodeChar c <+: part :=
    List.prefix_of_prefix_length_le stands (List.prefix_append part bytes)
      (longest _ stands ⟨c, List.prefix_rfl⟩)
  -- The part is no longer than one character, so it would be this one, with nothing left to read.
  obtain ⟨c', front_of⟩ := opens_of_reaches h
  obtain ⟨v, whole⟩ := within.trans front_of
  obtain rfl := eq_of_encode_append whole
  have all : String.utf8EncodeChar c = part ++ [] := by
    rw [List.append_nil]
    exact within.eq_of_length_le front_of.length_le
  cases (h.completes c []).1 all

theorem broken_of_start (none : ∀ c v, String.utf8EncodeChar c ≠ b :: v) : Broken [b] bytes := by
  have absent (front : List UInt8) (stands : front <+: b :: bytes) (some_byte : front ≠ []) :
      ¬ OpensCharacter front := by
    intro ⟨c, v, whole⟩
    cases front with
    | nil => exact some_byte rfl
    | cons x front =>
      obtain ⟨rfl, _⟩ := List.cons_prefix_cons.1 stands
      exact none c _ whole.symm
  refine ⟨?_, List.cons_ne_nil b [], Or.inr rfl, ?_⟩
  · intro c stands
    exact absent _ stands (encode_ne_nil c) ⟨c, List.prefix_rfl⟩
  · intro front stands opens
    by_cases nothing : front = []
    · rw [nothing]
      exact Nat.zero_le _
    · exact absurd opens (absent front stands nothing)

end Broken

/-- Bytes stand for what is read of them, those of a sequence under way included. -/
theorem decodes_decodeFrom (bytes : List UInt8) : Decodes bytes (decodeFrom none bytes) ∧
    ∀ part p, Reaches part p → Decodes (part ++ bytes) (decodeFrom (some p) bytes) := by
  induction bytes with
  | nil =>
    refine ⟨.nil, ?_⟩
    intro part p h
    exact .broken (broken_of_reaches h (by simp)) .nil
  | cons b bytes ih =>
    have fresh : Decodes (b :: bytes) (decodeFrom none (b :: bytes)) := by
      rw [decodeFrom, step]
      rcases start_cases b with ⟨c, whole, starts⟩ | ⟨none, starts⟩ | ⟨p, reaches, starts⟩
      · rw [starts]
        have here := Decodes.char c ih.1
        rw [whole] at here
        exact here
      · rw [starts]
        exact Decodes.broken (broken_of_start none) ih.1
      · rw [starts]
        exact ih.2 [b] p reaches
    refine ⟨fresh, ?_⟩
    intro part p h
    rw [decodeFrom]
    by_cases fits : p.Fits b
    · by_cases last : p.need ≤ 1
      · rw [step_last fits last]
        have whole := (h.completes _ [b]).2 (.last fits last)
        have here := Decodes.char (Char.ofNat (p.bitsWith b)) ih.1
        rw [whole, List.append_assoc] at here
        exact here
      · have more : 1 < p.need := by omega
        rw [step_more fits more]
        have here := ih.2 _ _ (reaches_more h fits more)
        rw [List.append_assoc] at here
        exact here
    · rw [step_misfit fits]
      refine .broken (broken_of_reaches h ?_) fresh
      intro x first
      obtain rfl := Option.some.inj first
      exact fits

theorem eq_of_encode_append_encode {c c' : Char} {v v' : List UInt8}
    (same : String.utf8EncodeChar c ++ v = String.utf8EncodeChar c' ++ v') : c = c' := by
  have front : String.utf8EncodeChar c <+: String.utf8EncodeChar c' ++ v' := ⟨v, same⟩
  rcases List.prefix_or_prefix_of_prefix front (List.prefix_append _ v') with ⟨w, h⟩ | ⟨w, h⟩
  · exact eq_of_encode_append h
  · exact (eq_of_encode_append h).symm

theorem Broken.length_le {part rest part' rest' : List UInt8} (h : Broken part rest)
    (h' : Broken part' rest') (same : part ++ rest = part' ++ rest') : part.length ≤ part'.length := by
  rcases h.opens with opens | single
  · exact h'.longest part ⟨rest, same⟩ opens
  · rw [single]
    exact List.length_pos_iff.2 h'.some_byte

/-- Where bytes are not at their end, they stand for what their first part stands for. -/
theorem Decodes.inversion {bytes : List UInt8} {t : List Char} (h : Decodes bytes t) :
    bytes = [] ∧ t = [] ∨
    (∃ c rest u, bytes = String.utf8EncodeChar c ++ rest ∧ t = c :: u ∧ Decodes rest u) ∨
    ∃ part rest u, bytes = part ++ rest ∧ t = '\uFFFD' :: u ∧ Broken part rest ∧ Decodes rest u := by
  cases h with
  | nil => exact Or.inl ⟨rfl, rfl⟩
  | char c rest => exact Or.inr (Or.inl ⟨c, _, _, rfl, rfl, rest⟩)
  | broken here rest => exact Or.inr (Or.inr ⟨_, _, _, rfl, rfl, here, rest⟩)

theorem Decodes.unique {bytes : List UInt8} {t t' : List Char} (h : Decodes bytes t)
    (h' : Decodes bytes t') : t = t' := by
  induction h generalizing t' with
  | nil =>
    rcases h'.inversion with ⟨_, rfl⟩ | ⟨c, v, u, whole, _⟩ | ⟨part, v, u, whole, _, broken, _⟩
    · rfl
    · exact absurd (List.append_eq_nil_iff.1 whole.symm).1 (encode_ne_nil c)
    · exact absurd (List.append_eq_nil_iff.1 whole.symm).1 broken.some_byte
  | char c rest ih =>
    rcases h'.inversion with ⟨nothing, _⟩ | ⟨c', v, u, whole, rfl, rest'⟩ | ⟨part, v, u, whole, _, broken, _⟩
    · exact absurd (List.append_eq_nil_iff.1 nothing).1 (encode_ne_nil c)
    · obtain rfl := eq_of_encode_append_encode whole
      obtain rfl := List.append_cancel_left whole
      rw [ih rest']
    · exact absurd ⟨_, whole⟩ (broken.no_character c)
  | broken here rest ih =>
    rcases h'.inversion with ⟨nothing, _⟩ | ⟨c', v, u, whole, _⟩ | ⟨part, v, u, whole, rfl, broken, rest'⟩
    · exact absurd (List.append_eq_nil_iff.1 nothing).1 here.some_byte
    · exact absurd ⟨v, whole.symm⟩ (here.no_character c')
    · have length := Nat.le_antisymm (here.length_le broken whole) (broken.length_le here whole.symm)
      obtain ⟨rfl, rfl⟩ := List.append_inj whole length
      rw [ih rest']

/-- What is read of bytes is the text that they stand for. -/
theorem decodes_iff {bytes : List UInt8} {t : List Char} : Decodes bytes t ↔ decodeUtf8 bytes = t := by
  have reads : Decodes bytes (decodeUtf8 bytes) := by
    rw [decodeUtf8_eq_decodeFrom]
    exact (decodes_decodeFrom bytes).1
  constructor
  · intro h
    exact reads.unique h
  · intro same
    exact same ▸ reads

theorem decodes_encodeUtf8 (t : List Char) : Decodes (encodeUtf8 t) t := by
  induction t with
  | nil => exact .nil
  | cons c t ih => exact .char c ih

end SourceSpecs.Text
