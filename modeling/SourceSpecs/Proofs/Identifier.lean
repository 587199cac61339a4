import SourceSpecs.Proofs.LexemeReading
import SourceSpecs.Syntax.Grammar.Basic
/-!
Names and whole numbers as they are written, and how far they are read.
-/
namespace SourceSpecs.Syntax

instance (priority := high) decidableForallMem (p : Char → Prop) [DecidablePred p] (t : List Char) :
    Decidable (∀ x ∈ t, p x) := List.decidableBAll p t

/-- The keywords of the language, and the words that are keywords in some places only. The predefined
    type `bigint` is left out: it is read as a name. -/
def keywords : List (List Char) := Grammar.words [
  "abstract", "accessor", "any", "as", "assert", "asserts", "async", "await", "boolean", "break",
  "case", "catch", "class", "const", "constructor", "continue", "debugger", "declare", "default",
  "defer", "delete", "do", "else", "enum", "export", "extends", "false", "finally", "for", "from",
  "function", "get", "global", "if", "implements", "import", "in", "infer", "instanceof",
  "interface", "intrinsic", "is", "keyof", "let", "module", "namespace", "never", "new", "null",
  "number", "object", "of", "out", "override", "package", "private", "protected", "public",
  "readonly", "require", "return", "satisfies", "set", "static", "string", "super", "switch",
  "symbol", "this", "throw", "true", "try", "type", "typeof", "undefined", "unique", "unknown",
  "using", "var", "void", "while", "with", "yield"]

def isIdentifierStart (c : Char) : Bool := c.isAlpha || c == '_'

def isIdentifierPart (c : Char) : Bool := c.isAlpha || c == '_' || c.isDigit

def isIdentifier : List Char → Bool
  | [] => false
  | c :: t => isIdentifierStart c && t.all isIdentifierPart && !keywords.contains (c :: t)

/-- ASCII letters, digits and underscores, the first of them no digit, that are no keyword. -/
structure Identifier where
  chars : List Char
  formed : isIdentifier chars = true
  deriving DecidableEq

structure Numeral where
  digits : List Char
  nonempty : digits ≠ []
  decimal : digits.all Char.isDigit = true
  deriving DecidableEq

def setApart (separator : List Char) : List (List Char) → List Char
  | [] => []
  | w :: ws => w ++ ws.flatMap (separator ++ ·)

theorem isIdentifierPart_iff {c : Char} : isIdentifierPart c = true ↔
    ((65 ≤ c.toNat ∧ c.toNat ≤ 90) ∨ (97 ≤ c.toNat ∧ c.toNat ≤ 122)) ∨ c = '_' ∨
      (48 ≤ c.toNat ∧ c.toNat ≤ 57) := by
  unfold isIdentifierPart Char.isAlpha Char.isUpper Char.isLower Char.isDigit
  simp only [Bool.or_eq_true, Bool.and_eq_true, decide_eq_true_eq, beq_iff_eq, ge_iff_le,
    UInt32.le_iff_toNat_le, or_assoc]
  rfl

theorem isIdentifierPart_of_start {c : Char} (h : isIdentifierStart c = true) :
    isIdentifierPart c = true := by
  rw [isIdentifierPart, Bool.or_eq_true]
  exact Or.inl h

theorem isNamePart_of_isIdentifierPart {c : Char} (h : isIdentifierPart c = true) :
    isNamePart c = true := by
  have no_mark : marks.contains c = false := by
    have apart : ∀ d ∈ marks, isIdentifierPart d = false := by decide
    apply Bool.eq_false_iff.2
    intro member
    rw [apart c (List.contains_iff_mem.1 member)] at h
    cases h
  have no_space : 32 ≤ c.toNat ∧ isSpace c = false := by
    rcases isIdentifierPart_iff.1 h with (upper | lower) | rfl | digit
    · simp only [isSpace, Bool.or_eq_false_iff, Bool.and_eq_false_iff, decide_eq_false_iff_not,
        beq_eq_false_iff_ne]
      omega
    · simp only [isSpace, Bool.or_eq_false_iff, Bool.and_eq_false_iff, decide_eq_false_iff_not,
        beq_eq_false_iff_ne]
      omega
    · decide
    · simp only [isSpace, Bool.or_eq_false_iff, Bool.and_eq_false_iff, decide_eq_false_iff_not,
        beq_eq_false_iff_ne]
      omega
  rw [isNamePart, no_mark, no_space.2, decide_eq_true no_space.1]
  rfl

theorem isNameStart_of_isIdentifierStart {c : Char} (h : isIdentifierStart c = true) :
    isNameStart c = true := by
  have no_digit : c.isDigit = false := by
    apply Bool.eq_false_iff.2
    intro digit
    unfold isIdentifierStart Char.isAlpha Char.isUpper Char.isLower at h
    unfold Char.isDigit at digit
    simp only [Bool.or_eq_true, Bool.and_eq_true, decide_eq_true_eq, beq_iff_eq, ge_iff_le,
      UInt32.le_iff_toNat_le] at h digit
    rcases h with (upper | lower) | rfl
    · have := Nat.le_trans upper.1 digit.2
      exact absurd this (by decide)
    · have := Nat.le_trans lower.1 digit.2
      exact absurd this (by decide)
    · exact absurd digit.2 (by decide)
  rw [isNameStart, no_digit, isNamePart_of_isIdentifierPart (isIdentifierPart_of_start h)]
  rfl

def EndsWord (t : List Char) : Prop := ∀ x ∈ t.head?, isNamePart x = false ∧ x ≠ '\\'

theorem endsWord_space : EndsWord (' ' :: v) := by
  intro x first
  obtain rfl := Option.some.inj first
  decide

/-- A word that is read as a whole. -/
structure IsWhole (w : List Char) : Prop where
  head : ∃ x ∈ w.head?, isNameStart x = true
  parts : ∀ x ∈ w, isNamePart x = true

theorem isWhole_of_letters {w : List Char} (nonempty : w ≠ [])
    (letters : w.all isIdentifierStart = true) : IsWhole w := by
  have start (x : Char) (member : x ∈ w) : isIdentifierStart x = true := List.all_eq_true.1 letters x member
  constructor
  · cases w with
    | nil => exact absurd rfl nonempty
    | cons x t => exact ⟨x, rfl, isNameStart_of_isIdentifierStart (start x List.mem_cons_self)⟩
  · intro x member
    exact isNamePart_of_isIdentifierPart (isIdentifierPart_of_start (start x member))

theorem Identifier.begins (i : Identifier) : ∃ x u, i.chars = x :: u ∧ isIdentifierStart x = true := by
  obtain ⟨w, formed⟩ := i
  cases w with
  | nil => cases formed
  | cons x u =>
    simp only [isIdentifier, Bool.and_eq_true] at formed
    exact ⟨x, u, rfl, formed.1.1⟩

theorem Identifier.parts (i : Identifier) : ∀ x ∈ i.chars, isIdentifierPart x = true := by
  obtain ⟨w, formed⟩ := i
  cases w with
  | nil => simp
  | cons x u =>
    simp only [isIdentifier, Bool.and_eq_true] at formed
    intro y member
    rcases List.mem_cons.1 member with rfl | member
    · exact isIdentifierPart_of_start formed.1.1
    · exact List.all_eq_true.1 formed.1.2 y member

theorem Identifier.isWhole (i : Identifier) : IsWhole i.chars := by
  obtain ⟨x, u, chars, start⟩ := i.begins
  constructor
  · exact ⟨x, by rw [chars]; rfl, isNameStart_of_isIdentifierStart start⟩
  · intro y member
    exact isNamePart_of_isIdentifierPart (i.parts y member)

theorem Identifier.not_keyword (i : Identifier) : i.chars ∉ keywords := by
  obtain ⟨w, formed⟩ := i
  cases w with
  | nil => cases formed
  | cons c t =>
    simp only [isIdentifier, Bool.and_eq_true, Bool.not_eq_true'] at formed
    intro member
    rw [List.contains_iff_mem.2 member] at formed
    exact absurd formed.2 (by simp)

structure Name where
  chars : List Char
  whole : IsWhole chars
  free : chars ∉ keywords

def Identifier.name (i : Identifier) : Name := ⟨i.chars, i.isWhole, i.not_keyword⟩

instance : Coe Identifier Name := ⟨Identifier.name⟩

def dottedChars (first : Name) (path : List Name) : List Char :=
  first.chars ++ path.flatMap ('.' :: ·.chars)

theorem Name.begins (n : Name) : ∃ x u, n.chars = x :: u ∧ isNameStart x = true := by
  obtain ⟨x, first, start⟩ := n.whole.head
  obtain ⟨u, chars⟩ := List.head?_eq_some_iff.1 first
  exact ⟨x, u, chars, start⟩

theorem Numeral.begins (n : Numeral) : ∃ x u, n.digits = x :: u ∧ x.isDigit = true := by
  obtain ⟨w, nonempty, decimal⟩ := n
  cases w with
  | nil => exact absurd rfl nonempty
  | cons x u => exact ⟨x, u, rfl, List.all_eq_true.1 decimal x List.mem_cons_self⟩

theorem nameLength_of_endsWord {t : List Char} (ends : EndsWord t) : nameLength 0 t = 0 := by
  cases t with
  | nil => rfl
  | cons c t =>
    obtain ⟨outside, no_escape⟩ := ends c rfl
    rw [nameLength_cons, outside, escapeLength_of_ne t no_escape]
    rfl

theorem nameLength?_whole {w t : List Char} (whole : IsWhole w) (ends : EndsWord t) :
    nameLength? (w ++ t) = some w.length := by
  have length (v : List Char) (parts : ∀ x ∈ v, isNamePart x = true) :
      nameLength 0 (v ++ t) = v.length := by
    induction v with
    | nil => exact nameLength_of_endsWord ends
    | cons c v ih =>
      rw [List.cons_append, nameLength_cons, if_pos (parts c List.mem_cons_self),
        ih fun x member => parts x (List.mem_cons_of_mem c member), List.length_cons]
  obtain ⟨x, first, start⟩ := whole.head
  cases w with
  | nil => cases first
  | cons c v =>
    obtain rfl := Option.some.inj first
    rw [List.cons_append, nameLength?, start, Bool.true_or, if_pos rfl, ← List.cons_append,
      length _ whole.parts]

theorem EndsWord.ne {t : List Char} {c : Char} (ends : EndsWord t) (part : isNamePart c = true) :
    t.head? ≠ some c := by
  intro first
  rw [(ends c first).1] at part
  cases part

theorem isNamePart_of_isDigit {c : Char} (digit : c.isDigit = true) : isNamePart c = true :=
  isNamePart_of_isIdentifierPart (by rw [isIdentifierPart, digit, Bool.or_true])

end SourceSpecs.Syntax
