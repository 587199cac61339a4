import SourceSpecs.Proofs.Block
import SourceSpecs.Proofs.Trimming
import SourceSpecs.Proofs.TypeText
import SourceSpecs.Proofs.WrittenForm
/-!
Signatures of functions as they are written, each with filler lines behind it, and what is to be
reported of them.
-/
namespace SourceSpecs.Syntax

open Text

inductive DefaultText where
  | number (negative : Bool) (digits : Numeral)
  | name (name : Identifier)

def DefaultText.chars : DefaultText → List Char
  | .number negative n => (if negative then ['-'] else []) ++ n.digits
  | .name i => i.chars

/-- A parameter with any of its marks: that it takes the rest, that it may be left out, its type, and
    its default value. -/
structure ParameterText where
  spread : Bool
  name : Identifier
  optional : Bool
  type : Option TypeText
  default : Option DefaultText

namespace ParameterText

def typeChars : Option TypeText → List Char
  | none => []
  | some T => [':', ' '] ++ T.chars

def defaultChars : Option DefaultText → List Char
  | none => []
  | some d => [' ', '=', ' '] ++ d.chars

def chars (a : ParameterText) : List Char :=
  (if a.spread then ['.', '.', '.'] else []) ++ (a.name.chars ++ ((if a.optional then ['?'] else []) ++
    (typeChars a.type ++ defaultChars a.default)))

def param (a : ParameterText) : Param where
  name := String.ofList a.name.chars
  type := a.type.map fun T => String.ofList T.chars
  default := a.default.map fun d => String.ofList d.chars

def names (a : ParameterText) : List String := a.type.elim [] TypeText.names

end ParameterText

/-- A signature with the lines of its body. A return type holds no opening angle bracket, and no line
    of the body opens a declaration or continues the header. -/
structure SignatureText where
  name : Identifier
  params : List ParameterText
  returns : Option TypeText
  plain : ∀ T ∈ returns, '<' ∉ T.chars
  body : List (List Char)
  filler : ∀ line ∈ body, (Block.filler line).WellFormed

namespace SignatureText

def paramsChars (s : SignatureText) : List Char := setApart [',', ' '] (s.params.map ParameterText.chars)

def header (s : SignatureText) : Block :=
  .function s.name.chars s.paramsChars (s.returns.map TypeText.chars)

def blocks (s : SignatureText) : List Block := s.header :: s.body.map .filler

def text (s : SignatureText) : List Char := Block.render s.blocks

def names (s : SignatureText) : List String :=
  s.params.flatMap ParameterText.names ++ s.returns.elim [] TypeText.names

def spec (s : SignatureText) : FunctionSpec where
  name := String.ofList s.name.chars
  params := s.params.map ParameterText.param
  returnType := s.returns.elim "void" fun T => String.ofList T.chars
  customTypes := sortNames (s.names.filter (!isBuiltinType ·))

end SignatureText

theorem ne_of_isInSignature {c : Char} (h : isInSignature c = true) : c ≠ ')' ∧ c ≠ '\n' := by
  constructor
  · rintro rfl
    exact absurd h (by decide)
  · rintro rfl
    exact absurd h (by decide)

theorem isWord_of_isIdentifierPart {c : Char} (h : isIdentifierPart c = true) : isWord c = true := by
  have ascii : ∀ n < 123, (65 ≤ n ∧ n ≤ 90) ∨ (97 ≤ n ∧ n ≤ 122) ∨ (48 ≤ n ∧ n ≤ 57) →
      covers alphanumeric n = true := by decide +kernel
  rw [isWord, Bool.or_eq_true, beq_iff_eq]
  rcases isIdentifierPart_iff.1 h with (upper | lower) | underscore | digit
  · exact Or.inr (ascii _ (by omega) (by omega))
  · exact Or.inr (ascii _ (by omega) (by omega))
  · exact Or.inl underscore
  · exact Or.inr (ascii _ (by omega) (by omega))

theorem not_isBlank_of_isIdentifierPart {c : Char} (h : isIdentifierPart c = true) : isBlank c = false :=
  Declaration.not_isBlank_of_isWord (isWord_of_isIdentifierPart h)

/-- Neither end of a type is blank. -/
theorem TypeText.bounds (T : TypeText) :
    (∃ x u, T.chars = x :: u ∧ isBlank x = false) ∧ ∃ u x, T.chars = u ++ [x] ∧ isBlank x = false := by
  have closers : ∀ x ∈ [']', '>', '\x7d'], isBlank x = false := by decide
  constructor
  · obtain ⟨x, u, begins, part | rfl⟩ := T.begins
    · exact ⟨x, u, begins, not_isBlank_of_isIdentifierPart part⟩
    · exact ⟨_, u, begins, by decide⟩
  · obtain ⟨u, x, ends, part | closer⟩ := T.ends
    · exact ⟨u, x, ends, not_isBlank_of_isIdentifierPart part⟩
    · exact ⟨u, x, ends, closers x closer⟩

theorem typingText_of_text {S : List Char} {t : Tree} (T : TypeText)
    (text : t.text S = String.ofList ([':', ' '] ++ T.chars)) :
    Signature.typingText S t = String.ofList T.chars := by
  have slice : t.span.slice S = ':' :: ([' '] ++ T.chars ++ []) := by
    rw [List.append_nil]
    exact String.ofList_injective text
  exact typingText_of_slice slice (by decide) ⟨T.bounds.1, T.bounds.2⟩

theorem DefaultText.all_isInSignature (d : DefaultText) : d.chars.all isInSignature = true := by
  cases d with
  | number negative n =>
    have digits : n.digits.all isInSignature = true := by
      rw [List.all_eq_true]
      intro x member
      apply isInSignature_of_part
      rw [isIdentifierPart, List.all_eq_true.1 n.decimal x member, Bool.or_true]
    rw [chars, List.all_append, digits, Bool.and_true]
    cases negative <;> rfl
  | name i => exact i.all_isInSignature

theorem ParameterText.all_isInSignature (a : ParameterText) : a.chars.all isInSignature = true := by
  have spread : (if a.spread then ['.', '.', '.'] else []).all isInSignature = true := by
    cases a.spread <;> rfl
  have optional : (if a.optional then ['?'] else []).all isInSignature = true := by
    cases a.optional <;> rfl
  have type : (typeChars a.type).all isInSignature = true := by
    cases a.type with
    | none => rfl
    | some T =>
      rw [typeChars, List.all_append, T.all_isInSignature]
      rfl
  have default : (defaultChars a.default).all isInSignature = true := by
    cases a.default with
    | none => rfl
    | some d =>
      rw [defaultChars, List.all_append, d.all_isInSignature]
      rfl
  rw [chars, List.all_append, List.all_append, List.all_append, List.all_append, spread,
    a.name.all_isInSignature, optional, type, default]
  rfl

namespace SignatureText

variable (s : SignatureText)

theorem formed_header : s.header.WellFormed := by
  obtain ⟨x, u, begins, _⟩ := s.name.begins
  refine ⟨⟨by simp [begins], fun y member => isWord_of_isIdentifierPart (s.name.parts y member)⟩, ?_, ?_⟩
  · intro y member
    have listed : s.paramsChars.all isInSignature = true := by
      apply all_isInSignature_setApart _ (by decide)
      intro w written
      obtain ⟨a, _, rfl⟩ := List.mem_map.1 written
      exact a.all_isInSignature
    exact (ne_of_isInSignature (List.all_eq_true.1 listed y member)).1
  · intro type returned
    obtain ⟨T, typed, rfl⟩ := Option.map_eq_some_iff.1 returned
    obtain ⟨⟨x, v, begins, begins_shown⟩, u, y, ends, ends_shown⟩ := T.bounds
    refine ⟨?_, ⟨x, by simp [begins], begins_shown⟩, ⟨y, by simp [ends], ends_shown⟩⟩
    intro z member
    have no_bracket : z ≠ '<' := by
      rintro rfl
      exact s.plain T typed member
    have no_break := (ne_of_isInSignature (List.all_eq_true.1 T.all_isInSignature z member)).2
    simp [Declaration.isInReturnType, no_bracket, no_break]

theorem formed_blocks : ∀ b ∈ s.blocks, b.WellFormed := by
  intro b member
  rcases List.mem_cons.1 member with rfl | member
  · exact s.formed_header
  · obtain ⟨line, inside, rfl⟩ := List.mem_map.1 member
    exact s.filler line inside

def functionChars : List Char :=
  "function".toList ++ ' ' :: (s.name.chars ++ '(' :: (s.paramsChars ++
    ')' :: (ParameterText.typeChars s.returns ++ [' ', '\x7b', '\x7d'])))

def headerChars : List Char := "export".toList ++ ' ' :: s.functionChars

theorem functionChars_append (v : List Char) : s.functionChars ++ v =
    "function".toList ++ ' ' :: (s.name.chars ++ '(' :: (s.paramsChars ++
      ')' :: (ParameterText.typeChars s.returns ++ ' ' :: '\x7b' :: '\x7d' :: v))) := by
  change ("function".toList ++ ' ' :: (s.name.chars ++ '(' :: (s.paramsChars ++
    ')' :: (ParameterText.typeChars s.returns ++ [' ', '\x7b', '\x7d'])))) ++ v = _
  simp only [List.append_assoc, List.cons_append, List.nil_append]

theorem functionChars_length : s.functionChars.length =
    "function".toList.length + 1 + s.name.chars.length + (s.paramsChars.length + 2) +
      (ParameterText.typeChars s.returns).length + 3 := by
  change ("function".toList ++ ' ' :: (s.name.chars ++ '(' :: (s.paramsChars ++
    ')' :: (ParameterText.typeChars s.returns ++ [' ', '\x7b', '\x7d'])))).length = _
  simp only [List.length_append, List.length_cons, List.length_nil]
  omega

theorem closedHeader_header : s.header.closedHeader = s.headerChars ++ ['\n'] := by
  have returned : Block.returnPart (s.returns.map TypeText.chars) = ParameterText.typeChars s.returns := by
    cases s.returns <;> rfl
  have first : "export function ".toList = "export".toList ++ ' ' :: ("function".toList ++ [' ']) := by
    decide
  have last : " \x7b\x7d\n".toList = [' ', '\x7b', '\x7d'] ++ ['\n'] := by decide
  change "export function ".toList ++ s.name.chars ++ '(' :: s.paramsChars ++ ')' ::
    Block.returnPart (s.returns.map TypeText.chars) ++ " \x7b\x7d\n".toList = _
  rw [returned, first, last]
  change _ = "export".toList ++ ' ' :: ("function".toList ++ ' ' :: (s.name.chars ++ '(' ::
    (s.paramsChars ++ ')' :: (ParameterText.typeChars s.returns ++ [' ', '\x7b', '\x7d'])))) ++ ['\n']
  simp only [List.append_assoc, List.cons_append, List.nil_append]

theorem closedHeaders (signatures : List SignatureText) :
    (signatures.flatMap blocks).flatMap Block.closedHeader =
      signatures.flatMap fun s => s.headerChars ++ ['\n'] := by
  have filler (lines : List (List Char)) : (lines.map Block.filler).flatMap Block.closedHeader = [] := by
    induction lines with
    | nil => rfl
    | cons line lines ih => exact ih
  induction signatures with
  | nil => rfl
  | cons s signatures ih =>
    rw [List.flatMap_cons, List.flatMap_append, blocks, List.flatMap_cons, filler, closedHeader_header,
      ih, List.append_nil, List.flatMap_cons]

end SignatureText

end SourceSpecs.Syntax
