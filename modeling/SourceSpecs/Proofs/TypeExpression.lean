import SourceSpecs.Proofs.Nesting
/-!
Types as they are written, with parentheses around what is no operand, and declarations of a name for
a type.
-/
namespace SourceSpecs.Syntax

def predefinedWords : List (List Char) := Grammar.words
  ["any", "number", "boolean", "string", "symbol", "void", "unknown", "never", "object"]

def literalWords : List (List Char) := Grammar.words ["true", "false", "null", "undefined"]

inductive LiteralText where
  | word (w : List Char) (known : w ∈ literalWords)
  | string (s : StringLiteral)
  | number (sign : List Char) (known : sign ∈ [[], ['-'], ['+']]) (n : NumberLiteral)

inductive Connective where
  | union | intersection
  deriving DecidableEq

/-- The key of a property. The word `abstract` is no key. -/
inductive PropertyKey where
  | word (w : List Char) (whole : IsWhole w) (apart : w ≠ "abstract".toList)
  | string (s : StringLiteral)
  | number (n : NumberLiteral) (starts : n.chars.head?.any Char.isDigit = true)

structure PropertyHead where
  isReadonly : Bool
  key : PropertyKey
  optional : Bool

structure ParameterHead where
  spread : Bool
  name : Name
  optional : Bool

mutual

inductive TypeOperand where
  | predefined (word : List Char) (known : word ∈ predefinedWords)
  | uniqueSymbol
  | literal (l : LiteralText)
  | named (first : Name) (path : List Name) (arguments : List TypeExpr)
  | array (element : TypeOperand)
  | tuple (elements : List TypeExpr)
  | object (properties : List (PropertyHead × TypeExpr)) (commas closed : Bool)
  | parenthesized (inner : TypeExpr)

inductive TypeExpr where
  /-- Operands with a connective before each of the further ones. -/
  | joined (first : TypeOperand) (further : List (Connective × TypeOperand))
  | function (parameters : List (ParameterHead × TypeExpr)) (result : TypeExpr)

end

def LiteralText.chars : LiteralText → List Char
  | .word w _ => w
  | .string s => s.chars
  | .number sign _ n => sign ++ n.chars

def Connective.mark : Connective → Char
  | .union => '|'
  | .intersection => '&'

def PropertyKey.chars : PropertyKey → List Char
  | .word w _ _ => w
  | .string s => s.chars
  | .number n _ => n.chars

def readonlyChars (isReadonly : Bool) : List Char := if isReadonly then "readonly ".toList else []

def PropertyHead.chars (h : PropertyHead) : List Char :=
  readonlyChars h.isReadonly ++ h.key.chars ++ (if h.optional then ['?'] else [])

def ParameterHead.chars (h : ParameterHead) : List Char :=
  (if h.spread then ['.', '.', '.'] else []) ++ h.name.chars ++ (if h.optional then ['?'] else [])

def uniqueChars : List Char := "unique symbol".toList

def argumentChars (ws : List (List Char)) : List Char :=
  if ws.isEmpty then [] else '<' :: setApart [',', ' '] ws ++ ['>']

def bracedChars (mark : Char) (closed : Bool) (ws : List (List Char)) : List Char :=
  if ws.isEmpty then ['\x7b', '\x7d']
  else ['\x7b', ' '] ++ setApart [mark, ' '] ws ++ (if closed then [mark] else []) ++ [' ', '\x7d']

mutual

def TypeOperand.chars : TypeOperand → List Char
  | .predefined word _ => word
  | .uniqueSymbol => uniqueChars
  | .literal l => l.chars
  | .named first path arguments => dottedChars first path ++ argumentChars (charsOfTypes arguments)
  | .array element => element.chars ++ ['[', ']']
  | .tuple elements => '[' :: setApart [',', ' '] (charsOfTypes elements) ++ [']']
  | .object properties commas closed =>
    bracedChars (if commas then ',' else ';') closed (charsOfProperties properties)
  | .parenthesized inner => '(' :: inner.chars ++ [')']

def TypeExpr.chars : TypeExpr → List Char
  | .joined first further => first.chars ++ charsOfFurther further
  | .function parameters result =>
    '(' :: setApart [',', ' '] (charsOfParameters parameters) ++ [')', ' ', '=', '>', ' '] ++ result.chars

def charsOfTypes : List TypeExpr → List (List Char)
  | [] => []
  | T :: Ts => T.chars :: charsOfTypes Ts

def charsOfProperties : List (PropertyHead × TypeExpr) → List (List Char)
  | [] => []
  | (h, T) :: ps => (h.chars ++ [':', ' '] ++ T.chars) :: charsOfProperties ps

def charsOfParameters : List (ParameterHead × TypeExpr) → List (List Char)
  | [] => []
  | (h, T) :: ps => (h.chars ++ [':', ' '] ++ T.chars) :: charsOfParameters ps

def charsOfFurther : List (Connective × TypeOperand) → List Char
  | [] => []
  | (c, T) :: Ts => [' ', c.mark, ' '] ++ T.chars ++ charsOfFurther Ts

end

mutual

/-- The names that a type refers to: a name itself, with its path but without its arguments, and
    those of the types that another type is made of. -/
def TypeOperand.names : TypeOperand → List String
  | .predefined _ _ | .uniqueSymbol | .literal _ => []
  | .named first path _ => [String.ofList (dottedChars first path)]
  | .array element => element.names
  | .tuple elements => namesOfTypes elements
  | .object properties _ _ => namesOfProperties properties
  | .parenthesized inner => inner.names

def TypeExpr.names : TypeExpr → List String
  | .joined first further => first.names ++ namesOfFurther further
  | .function parameters result => namesOfParameters parameters ++ result.names

def namesOfTypes : List TypeExpr → List String
  | [] => []
  | T :: Ts => T.names ++ namesOfTypes Ts

def namesOfProperties : List (PropertyHead × TypeExpr) → List String
  | [] => []
  | (_, T) :: ps => T.names ++ namesOfProperties ps

def namesOfParameters : List (ParameterHead × TypeExpr) → List String
  | [] => []
  | (_, T) :: ps => T.names ++ namesOfParameters ps

def namesOfFurther : List (Connective × TypeOperand) → List String
  | [] => []
  | (_, T) :: Ts => T.names ++ namesOfFurther Ts

end

mutual

/-- The type with every connective taken for that of a union. -/
def TypeOperand.asUnions : TypeOperand → TypeOperand
  | .predefined word known => .predefined word known
  | .uniqueSymbol => .uniqueSymbol
  | .literal l => .literal l
  | .named first path arguments => .named first path (asUnionsAll arguments)
  | .array element => .array element.asUnions
  | .tuple elements => .tuple (asUnionsAll elements)
  | .object properties commas closed => .object (asUnionsProperties properties) commas closed
  | .parenthesized inner => .parenthesized inner.asUnions

def TypeExpr.asUnions : TypeExpr → TypeExpr
  | .joined first further => .joined first.asUnions (asUnionsFurther further)
  | .function parameters result => .function (asUnionsParameters parameters) result.asUnions

def asUnionsAll : List TypeExpr → List TypeExpr
  | [] => []
  | T :: Ts => T.asUnions :: asUnionsAll Ts

def asUnionsProperties : List (PropertyHead × TypeExpr) → List (PropertyHead × TypeExpr)
  | [] => []
  | (h, T) :: ps => (h, T.asUnions) :: asUnionsProperties ps

def asUnionsParameters : List (ParameterHead × TypeExpr) → List (ParameterHead × TypeExpr)
  | [] => []
  | (h, T) :: ps => (h, T.asUnions) :: asUnionsParameters ps

def asUnionsFurther : List (Connective × TypeOperand) → List (Connective × TypeOperand)
  | [] => []
  | (_, T) :: Ts => (.union, T.asUnions) :: asUnionsFurther Ts

end

structure TypeParameterText where
  name : Name
  bound : Option TypeExpr
  default : Option TypeExpr

structure AliasText where
  name : Name
  parameters : List TypeParameterText
  type : TypeExpr

def boundChars : Option TypeExpr → List Char
  | none => []
  | some T => ' ' :: ("extends".toList ++ ' ' :: T.chars)

def defaultTypeChars : Option TypeExpr → List Char
  | none => []
  | some T => [' ', '=', ' '] ++ T.chars

namespace TypeParameterText

variable (p : TypeParameterText)

def chars : List Char := p.name.chars ++ boundChars p.bound ++ defaultTypeChars p.default

def names : List String := p.bound.elim [] TypeExpr.names ++ p.default.elim [] TypeExpr.names

def asUnions : TypeParameterText :=
  { p with bound := p.bound.map TypeExpr.asUnions, default := p.default.map TypeExpr.asUnions }

end TypeParameterText

namespace AliasText

variable (a : AliasText)

def chars : List Char :=
  "type".toList ++ ' ' :: (a.name.chars ++ argumentChars (a.parameters.map TypeParameterText.chars) ++
    [' ', '=', ' '] ++ a.type.chars ++ [';'])

/-- The names that a declaration refers to: those of its type, and of the types that its parameters
    keep to and have by default. -/
def names : List String := a.parameters.flatMap TypeParameterText.names ++ a.type.names

def asUnions : AliasText :=
  { a with parameters := a.parameters.map TypeParameterText.asUnions, type := a.type.asUnions }

end AliasText

section Unions

mutual

theorem TypeOperand.names_asUnions : (T : TypeOperand) → T.asUnions.names = T.names
  | .predefined _ _ | .uniqueSymbol | .literal _ => by rw [TypeOperand.asUnions]
  | .named _ _ _ => by rw [TypeOperand.asUnions, TypeOperand.names, TypeOperand.names]
  | .array element => by
    rw [TypeOperand.asUnions, TypeOperand.names, TypeOperand.names, TypeOperand.names_asUnions element]
  | .tuple elements => by
    rw [TypeOperand.asUnions, TypeOperand.names, TypeOperand.names, namesOfTypes_asUnions elements]
  | .object properties _ _ => by
    rw [TypeOperand.asUnions, TypeOperand.names, TypeOperand.names, namesOfProperties_asUnions properties]
  | .parenthesized inner => by
    rw [TypeOperand.asUnions, TypeOperand.names, TypeOperand.names, TypeExpr.names_asUnions inner]

theorem TypeExpr.names_asUnions : (T : TypeExpr) → T.asUnions.names = T.names
  | .joined first further => by
    rw [TypeExpr.asUnions, TypeExpr.names, TypeExpr.names, TypeOperand.names_asUnions first,
      namesOfFurther_asUnions further]
  | .function parameters result => by
    rw [TypeExpr.asUnions, TypeExpr.names, TypeExpr.names, namesOfParameters_asUnions parameters,
      TypeExpr.names_asUnions result]

theorem namesOfTypes_asUnions : (Ts : List TypeExpr) → namesOfTypes (asUnionsAll Ts) = namesOfTypes Ts
  | [] => rfl
  | T :: Ts => by
    rw [asUnionsAll, namesOfTypes, namesOfTypes, TypeExpr.names_asUnions T, namesOfTypes_asUnions Ts]

theorem namesOfProperties_asUnions : (ps : List (PropertyHead × TypeExpr)) →
    namesOfProperties (asUnionsProperties ps) = namesOfProperties ps
  | [] => rfl
  | (_, T) :: ps => by
    rw [asUnionsProperties, namesOfProperties, namesOfProperties, TypeExpr.names_asUnions T,
      namesOfProperties_asUnions ps]

theorem namesOfParameters_asUnions : (ps : List (ParameterHead × TypeExpr)) →
    namesOfParameters (asUnionsParameters ps) = namesOfParameters ps
  | [] => rfl
  | (_, T) :: ps => by
    rw [asUnionsParameters, namesOfParameters, namesOfParameters, TypeExpr.names_asUnions T,
      namesOfParameters_asUnions ps]

theorem namesOfFurther_asUnions : (Ts : List (Connective × TypeOperand)) →
    namesOfFurther (asUnionsFurther Ts) = namesOfFurther Ts
  | [] => rfl
  | (_, T) :: Ts => by
    rw [asUnionsFurther, namesOfFurther, namesOfFurther, TypeOperand.names_asUnions T,
      namesOfFurther_asUnions Ts]

end

theorem TypeParameterText.names_asUnions (p : TypeParameterText) : p.asUnions.names = p.names := by
  obtain ⟨name, bound, default⟩ := p
  cases bound <;> cases default <;> simp [asUnions, names, TypeExpr.names_asUnions]

theorem AliasText.names_asUnions (a : AliasText) : a.asUnions.names = a.names := by
  simp [asUnions, names, TypeExpr.names_asUnions, List.flatMap_map, TypeParameterText.names_asUnions]

end Unions

section Balanced

theorem IsWhole.balanced {w : List Char} (whole : IsWhole w) : Balanced w :=
  balanced_of_plain fun x member => isPlain_of_isInline (isInline_of_isNamePart (whole.parts x member))

theorem NumberLiteral.balanced (n : NumberLiteral) : Balanced n.chars := by
  obtain ⟨w, whole⟩ := n
  have run := (inline_numberLength.run w).2
  have length : max (radixLength w) (decimalLength w) = w.length := by
    rw [numberLength?] at whole
    split at whole
    · cases whole
    · exact Option.some.inj whole
  rw [length, List.take_length] at run
  exact balanced_of_plain fun x member => isPlain_of_isInline (run x member)

theorem balanced_dottedChars (first : Name) (path : List Name) : Balanced (dottedChars first path) := by
  apply first.whole.balanced.append
  apply balanced_flatMap
  intro n _
  exact (balanced_of_plain (w := ['.']) (by decide)).append n.whole.balanced

theorem LiteralText.balanced : (l : LiteralText) → Balanced l.chars
  | .word w known => by
    have plain : ∀ w ∈ literalWords, w.all isPlain = true := by decide
    exact balanced_of_plain (List.all_eq_true.1 (plain w known))
  | .string s => s.balanced
  | .number sign known n => by
    have plain : ∀ w ∈ [[], ['-'], ['+']], w.all isPlain = true := by decide
    exact (balanced_of_plain (List.all_eq_true.1 (plain sign known))).append n.balanced

theorem balanced_optional (optional : Bool) : Balanced (if optional then ['?'] else []) := by
  cases optional
  · exact balanced_nil
  · exact balanced_of_plain (by decide)

theorem PropertyHead.balanced (h : PropertyHead) : Balanced h.chars := by
  have front : Balanced (readonlyChars h.isReadonly) := by
    cases h.isReadonly
    · exact balanced_nil
    · exact balanced_of_plain (by decide)
  have key : Balanced h.key.chars := by
    cases h.key with
    | word w whole apart => exact whole.balanced
    | string s => exact s.balanced
    | number n starts => exact n.balanced
  exact (front.append key).append (balanced_optional h.optional)

theorem ParameterHead.balanced (h : ParameterHead) : Balanced h.chars := by
  have front : Balanced (if h.spread then ['.', '.', '.'] else []) := by
    cases h.spread
    · exact balanced_nil
    · exact balanced_of_plain (by decide)
  exact (front.append h.name.whole.balanced).append (balanced_optional h.optional)

theorem balanced_listed {mark : Char} (plain : isPlain mark = true) {ws : List (List Char)}
    (all : ∀ w ∈ ws, Balanced w) : Balanced (setApart [mark, ' '] ws) := by
  apply balanced_setApart _ all
  apply balanced_of_plain
  intro x member
  simp only [List.mem_cons, List.not_mem_nil, or_false] at member
  rcases member with rfl | rfl
  · exact plain
  · decide

theorem balanced_argumentChars {ws : List (List Char)} (all : ∀ w ∈ ws, Balanced w) :
    Balanced (argumentChars ws) := by
  rw [argumentChars]
  split
  · exact balanced_nil
  · have opening : Balanced ['<'] := balanced_of_plain (by decide)
    exact (opening.append (balanced_listed (by decide) all)).append (balanced_of_plain (by decide))

theorem balanced_bracedChars {mark : Char} (plain : isPlain mark = true) (closed : Bool)
    {ws : List (List Char)} (all : ∀ w ∈ ws, Balanced w) : Balanced (bracedChars mark closed ws) := by
  have space : Balanced [' '] := balanced_of_plain (by decide)
  have last : Balanced (if closed then [mark] else []) := by
    cases closed
    · exact balanced_nil
    · apply balanced_of_plain
      simpa using plain
  have inside := ((space.append (balanced_listed plain all)).append last).append space
  rw [bracedChars]
  split
  · exact balanced_nil.enclose (b := .brace) rfl
  · have whole := inside.enclose (c := '\x7b') (b := .brace) rfl
    simpa [Opening.closer] using whole

mutual

theorem TypeOperand.balanced : (T : TypeOperand) → Balanced T.chars
  | .predefined w known => by
    have plain : ∀ w ∈ predefinedWords, w.all isPlain = true := by decide
    exact balanced_of_plain (List.all_eq_true.1 (plain w known))
  | .uniqueSymbol => balanced_of_plain (by decide)
  | .literal l => l.balanced
  | .named first path arguments =>
    (balanced_dottedChars first path).append (balanced_argumentChars (balanced_charsOfTypes arguments))
  | .array element =>
    (TypeOperand.balanced element).append (balanced_nil.enclose (b := .bracket) rfl)
  | .tuple elements =>
    (balanced_listed (by decide) (balanced_charsOfTypes elements)).enclose (b := .bracket) rfl
  | .object properties commas closed => by
    apply balanced_bracedChars _ closed (balanced_charsOfProperties properties)
    cases commas <;> decide
  | .parenthesized inner => (TypeExpr.balanced inner).enclose (b := .parenthesis) rfl

theorem TypeExpr.balanced : (T : TypeExpr) → Balanced T.chars
  | .joined first further => (TypeOperand.balanced first).append (balanced_charsOfFurther further)
  | .function parameters result => by
    have listed : Balanced (setApart [',', ' '] (charsOfParameters parameters)) :=
      balanced_listed (by decide) (balanced_charsOfParameters parameters)
    have front := (listed.enclose (c := '(') (b := .parenthesis) rfl).append
      (balanced_of_plain (w := [' ', '=', '>', ' ']) (by decide))
    have whole := front.append (TypeExpr.balanced result)
    simpa [TypeExpr.chars, Opening.closer] using whole

theorem balanced_charsOfTypes : (Ts : List TypeExpr) → ∀ w ∈ charsOfTypes Ts, Balanced w
  | [] => by simp [charsOfTypes]
  | T :: Ts => by
    intro w member
    rcases List.mem_cons.1 member with rfl | member
    · exact TypeExpr.balanced T
    · exact balanced_charsOfTypes Ts w member

theorem balanced_charsOfProperties :
    (ps : List (PropertyHead × TypeExpr)) → ∀ w ∈ charsOfProperties ps, Balanced w
  | [] => by simp [charsOfProperties]
  | (h, T) :: ps => by
    intro w member
    rcases List.mem_cons.1 member with rfl | member
    · exact (h.balanced.append (balanced_of_plain (by decide))).append (TypeExpr.balanced T)
    · exact balanced_charsOfProperties ps w member

theorem balanced_charsOfParameters :
    (ps : List (ParameterHead × TypeExpr)) → ∀ w ∈ charsOfParameters ps, Balanced w
  | [] => by simp [charsOfParameters]
  | (h, T) :: ps => by
    intro w member
    rcases List.mem_cons.1 member with rfl | member
    · exact (h.balanced.append (balanced_of_plain (by decide))).append (TypeExpr.balanced T)
    · exact balanced_charsOfParameters ps w member

theorem balanced_charsOfFurther :
    (Ts : List (Connective × TypeOperand)) → Balanced (charsOfFurther Ts)
  | [] => balanced_nil
  | (c, T) :: Ts => by
    have mark : Balanced [' ', c.mark, ' '] := by
      cases c <;> exact balanced_of_plain (by decide)
    exact (mark.append (TypeOperand.balanced T)).append (balanced_charsOfFurther Ts)

end

end Balanced

end SourceSpecs.Syntax
