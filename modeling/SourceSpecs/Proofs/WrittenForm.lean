import Mathlib.Computability.Language
import SourceSpecs.Declaration.Form
import SourceSpecs.Proofs.Reading
/-!
The written forms of a declaration as languages, and how a language is read from a cursor. A run
of characters is read as far as it goes whenever what follows it cannot begin inside the run.
-/
namespace SourceSpecs.Declaration

open Text

def exactly (w : String) : Language Char := {w.toList}

def run (p : Char → Bool) : Language Char := {u | ∀ x ∈ u, p x = true}

def runSome (p : Char → Bool) : Language Char := {u | u ≠ [] ∧ ∀ x ∈ u, p x = true}

def oneOf (p : Char → Bool) : Language Char := {u | ∃ x, p x = true ∧ u = [x]}

def maybe (L : Language Char) : Language Char := 1 + L

def anything : Language Char := run fun _ => true

/-- The parts of a form from left to right. -/
def Form.parts : Form → List (Language Char)
  | .function => [exactly "export", runSome isBlank, exactly "function", runSome isBlank,
      runSome isWord, run isBlank, exactly "(", run (· != ')'), exactly ")", run isBlank,
      maybe (exactly ":" * run isBlank * runSome isInReturnType), runSome isBlank, exactly "\x7b\n"]
  | .interface => [maybe (exactly "export" * runSome isBlank), exactly "interface",
      runSome isBlank, runSome isWord, run isBlank, exactly "\x7b", anything, exactly "\n\x7d\n"]
  | .typeAlias => [maybe (exactly "export" * runSome isBlank), exactly "type", runSome isBlank,
      runSome isWord, run isBlank, exactly "=", run isBlank, anything, exactly ";\n"]
  | .importFrom => [exactly "import", runSome isBlank, anything, exactly "from", run isBlank,
      oneOf isQuote, run isInLine, oneOf isQuote, maybe (exactly ";"), exactly "\n"]
  | .require => [exactly "const", anything, exactly "require(", run isBlank, oneOf isQuote,
      run isInLine, oneOf isQuote, run isBlank, exactly ")", maybe (exactly ";"), exactly "\n"]

def Form.written (f : Form) : Language Char := f.parts.prod

/-- A word of the language lies between the two cursors. -/
def Takes (L : Language Char) (c d : Cursor) : Prop := ∃ w ∈ L, c.Reads w d

theorem takes_offset_le {L : Language Char} {c d : Cursor} (h : Takes L c d) :
    c.offset ≤ d.offset := by
  obtain ⟨w, _, reads⟩ := h
  have := reads.2
  omega

theorem takes_mul_iff {L M : Language Char} {c d : Cursor} :
    Takes (L * M) c d ↔ ∃ e, Takes L c e ∧ Takes M e d := by
  simp only [Takes, Language.mem_mul]
  constructor
  · rintro ⟨_, ⟨u, hu, v, hv, rfl⟩, reads⟩
    refine ⟨⟨c.offset + u.length, v ++ d.rest⟩, ⟨u, hu, ?_⟩, v, hv, rfl, ?_⟩
    · exact Cursor.reads_of_rest (by rw [reads.1, List.append_assoc])
    · rw [reads.2, List.length_append, Nat.add_assoc]
  · rintro ⟨e, ⟨u, hu, first⟩, v, hv, second⟩
    exact ⟨u ++ v, ⟨u, hu, v, hv, rfl⟩, first.append second⟩

theorem takes_one_iff {c d : Cursor} : Takes 1 c d ↔ d = c := by
  simp only [Takes, Language.mem_one, exists_eq_left, Cursor.reads_nil_iff, eq_comm]

theorem takes_maybe_iff {L : Language Char} {c d : Cursor} :
    Takes (maybe L) c d ↔ d = c ∨ Takes L c d := by
  rw [← takes_one_iff]
  simp only [Takes, maybe, Language.mem_add, or_and_right, exists_or]

theorem takes_exactly_iff {w : String} {c d : Cursor} :
    Takes (exactly w) c d ↔ word w c = some d := by
  rw [word, Cursor.past?_eq_some_iff]
  exact ⟨by rintro ⟨_, rfl, h⟩; exact h, fun h => ⟨_, rfl, h⟩⟩

theorem takes_oneOf_iff {p : Char → Bool} {c d : Cursor} :
    Takes (oneOf p) c d ↔ ∃ x, c.next? p = some (x, d) := by
  simp only [Cursor.next?_eq_some_iff]
  constructor
  · rintro ⟨_, ⟨x, px, rfl⟩, reads⟩
    exact ⟨x, reads, px⟩
  · rintro ⟨x, reads, px⟩
    exact ⟨[x], ⟨x, px, rfl⟩, reads⟩

/-- Every word of the language begins with a character outside the class. -/
def BeginsOutside (p : Char → Bool) (L : Language Char) : Prop :=
  ∀ w ∈ L, ∃ x ∈ w.head?, p x = false

theorem beginsOutside_mul {p : Char → Bool} {L : Language Char} (h : BeginsOutside p L)
    (M : Language Char) : BeginsOutside p (L * M) := by
  intro w member
  obtain ⟨u, hu, v, _, rfl⟩ := Language.mem_mul.1 member
  obtain ⟨x, first, px⟩ := h u hu
  cases u with
  | nil => cases first
  | cons y u => exact ⟨x, first, px⟩

theorem beginsOutside_run_mul {p q : Char → Bool} {L : Language Char}
    (apart : ∀ x, q x = true → p x = false) (h : BeginsOutside p L) :
    BeginsOutside p (run q * L) := by
  intro w member
  obtain ⟨u, hu, v, hv, rfl⟩ := Language.mem_mul.1 member
  cases u with
  | nil => exact h v hv
  | cons y u => exact ⟨y, rfl, apart y (hu y List.mem_cons_self)⟩

theorem beginsOutside_runSome {p q : Char → Bool} (apart : ∀ x, q x = true → p x = false) :
    BeginsOutside p (runSome q) := by
  rintro (_ | ⟨y, u⟩) ⟨nonempty, inside⟩
  · exact absurd rfl nonempty
  · exact ⟨y, rfl, apart y (inside y List.mem_cons_self)⟩

theorem beginsOutside_exactly {p : Char → Bool} {w : String}
    (h : ∃ x ∈ w.toList.head?, p x = false) : BeginsOutside p (exactly w) := by
  rintro _ rfl
  exact h

theorem head_rest_of_takes {p : Char → Bool} {L : Language Char} (outside : BeginsOutside p L)
    {c d : Cursor} (h : Takes L c d) : ∀ x ∈ c.rest.head?, p x = false := by
  obtain ⟨w, member, reads⟩ := h
  obtain ⟨x, first, px⟩ := outside w member
  intro y first'
  cases w with
  | nil => cases first
  | cons z w =>
    rw [reads.1] at first'
    cases first; cases first'
    exact px

theorem takes_run_mul_iff {p : Char → Bool} {L : Language Char} (outside : BeginsOutside p L)
    {c d : Cursor} : Takes (run p * L) c d ↔ Takes L (c.skip p) d := by
  rw [takes_mul_iff]
  constructor
  · rintro ⟨e, ⟨u, inside, reads⟩, after⟩
    have : c.skip p = e :=
      Cursor.skip_eq_iff.2 ⟨u, reads, inside, head_rest_of_takes outside after⟩
    exact this ▸ after
  · intro after
    obtain ⟨u, reads, inside, _⟩ := Cursor.skip_eq_iff.1 (rfl : c.skip p = c.skip p)
    exact ⟨_, ⟨u, inside, reads⟩, after⟩

theorem takes_runSome_mul_iff {p : Char → Bool} {L : Language Char} (outside : BeginsOutside p L)
    {c d : Cursor} : Takes (runSome p * L) c d ↔ ∃ e, c.skipSome? p = some e ∧ Takes L e d := by
  rw [takes_mul_iff]
  constructor
  · rintro ⟨e, ⟨u, ⟨nonempty, inside⟩, reads⟩, after⟩
    exact ⟨e, Cursor.skipSome?_eq_some_iff.2
      ⟨u, reads, nonempty, inside, head_rest_of_takes outside after⟩, after⟩
  · rintro ⟨e, skipped, after⟩
    obtain ⟨u, reads, nonempty, inside, _⟩ := Cursor.skipSome?_eq_some_iff.1 skipped
    exact ⟨e, ⟨u, ⟨nonempty, inside⟩, reads⟩, after⟩

theorem takes_exactly_mul_iff {w : String} {L : Language Char} {c d : Cursor} :
    Takes (exactly w * L) c d ↔ ∃ e, word w c = some e ∧ Takes L e d := by
  simp only [takes_mul_iff, takes_exactly_iff]

def blankCodes : List Nat :=
  [9, 10, 11, 12, 13, 28, 29, 30, 31, 32, 0x85, 0xA0, 0x1680, 0x2000, 0x2001, 0x2002, 0x2003,
    0x2004, 0x2005, 0x2006, 0x2007, 0x2008, 0x2009, 0x200A, 0x2028, 0x2029, 0x202F, 0x205F, 0x3000]

theorem toNat_mem_blankCodes {x : Char} (h : isBlank x = true) : x.toNat ∈ blankCodes := by
  simp only [isBlank, Bool.or_eq_true, Bool.and_eq_true, decide_eq_true_eq, beq_iff_eq] at h
  simp only [blankCodes, List.mem_cons, List.not_mem_nil, or_false]
  omega

theorem not_isWord_of_isBlank {x : Char} (h : isBlank x = true) : isWord x = false := by
  have code := toNat_mem_blankCodes h
  have uncovered : ∀ n ∈ blankCodes, covers alphanumeric n = false := by decide +kernel
  have not_underscore : x ≠ '_' := by
    rintro rfl
    revert code
    decide
  simp [isWord, not_underscore, uncovered _ code]

theorem not_isBlank_of_isWord {x : Char} (h : isWord x = true) : isBlank x = false := by
  by_contra blank
  simp [not_isWord_of_isBlank (Bool.eq_true_of_not_eq_false blank)] at h

end SourceSpecs.Declaration
