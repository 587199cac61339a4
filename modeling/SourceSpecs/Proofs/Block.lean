import SourceSpecs.Extraction
/-!
Sources laid out as a list of blocks: one block for each form of a declaration, and filler lines
between them. A block is written as its text, and its text is what a scan should report for it.
-/
namespace SourceSpecs

inductive Block where
  | function (name params : List Char) (returns : Option (List Char))
  | interface (exported : Bool) (name body : List Char)
  | typeAlias (exported : Bool) (name body : List Char)
  | importFrom (clause : List Char) (quote : Char) (path : List Char) (semicolon : Bool)
  | require (clause : List Char) (quote : Char) (path : List Char) (semicolon : Bool)
  | filler (line : List Char)
  deriving DecidableEq, Repr

namespace Block

open Text Declaration

def given (present : Bool) (w : String) : List Char := if present then w.toList else []

def returnPart : Option (List Char) → List Char
  | none => []
  | some type => ": ".toList ++ type

def text : Block → List Char
  | .function name params returns =>
    "export function ".toList ++ name ++ '(' :: params ++ ')' :: returnPart returns ++
      " \x7b\n".toList
  | .interface exported name body =>
    given exported "export " ++ "interface ".toList ++ name ++ " \x7b".toList ++ body ++
      "\n\x7d\n".toList
  | .typeAlias exported name body =>
    given exported "export " ++ "type ".toList ++ name ++ " = ".toList ++ body ++ ";\n".toList
  | .importFrom clause quote path semicolon =>
    "import ".toList ++ clause ++ " from ".toList ++ quote :: path ++
      quote :: given semicolon ";" ++ ['\n']
  | .require clause quote path semicolon =>
    "const ".toList ++ clause ++ " = require(".toList ++ quote :: path ++
      quote :: ')' :: given semicolon ";" ++ ['\n']
  | .filler line => line ++ ['\n']

def isFiller : Block → Bool
  | .filler _ => true
  | _ => false

/-- The text ends in the closing part, and that is its only occurrence. -/
def ClosesFirst (closer : String) (body : List Char) : Prop :=
  ∀ i < body.length, ¬ closer.toList <+: (body ++ closer.toList).drop i

def openingWords : List String := ["export", "interface", "type", "import", "const"]

def IsName (name : List Char) : Prop := name ≠ [] ∧ ∀ x ∈ name, isWord x = true

def IsPath (path : List Char) : Prop := ∀ x ∈ path, isQuote x = false ∧ x ≠ '\n'

def IsReturnType (type : List Char) : Prop :=
  (∀ x ∈ type, isInReturnType x = true) ∧ (∃ x ∈ type.head?, isBlank x = false) ∧
    ∃ x ∈ type.getLast?, isBlank x = false

instance {closer : String} : DecidablePred (ClosesFirst closer) :=
  fun body => Nat.decidableBallLT body.length _

instance : DecidablePred IsName := fun name =>
  have : Decidable (∀ x ∈ name, isWord x = true) := List.decidableBAll _ name
  inferInstanceAs (Decidable (_ ∧ _))

instance : DecidablePred IsPath := fun path => List.decidableBAll _ path

instance : DecidablePred IsReturnType := fun type =>
  have : Decidable (∀ x ∈ type, isInReturnType x = true) := List.decidableBAll _ type
  have (o : Option Char) : Decidable (∃ x ∈ o, isBlank x = false) := Option.decidableExistsMem o
  inferInstanceAs (Decidable (_ ∧ _ ∧ _))

/-- What a block has to keep to for its text to be read as that block. -/
def WellFormed : Block → Prop
  | .function name params returns =>
    IsName name ∧ (∀ x ∈ params, x ≠ ')') ∧ ∀ type ∈ returns, IsReturnType type
  | .interface _ name body => IsName name ∧ ClosesFirst "\n\x7d\n" body
  | .typeAlias _ name body => IsName name ∧ ClosesFirst ";\n" body
  | .importFrom clause quote path _ =>
    ¬ "from".toList <:+: clause ∧ isQuote quote = true ∧ IsPath path
  | .require clause quote path _ =>
    ¬ "require(".toList <:+: clause ∧ isQuote quote = true ∧ IsPath path
  | .filler line =>
    (∀ x ∈ line, x ≠ '\n') ∧ (∀ w ∈ openingWords, ¬ w.toList <+: line) ∧
      (line.dropWhile isBlank).head? ≠ some '\x7b'

instance : (b : Block) → Decidable b.WellFormed
  | .function name params returns =>
    have : Decidable (∀ x ∈ params, x ≠ ')') := List.decidableBAll _ params
    inferInstanceAs (Decidable (IsName name ∧ _ ∧ ∀ type ∈ returns, IsReturnType type))
  | .interface _ _ _ | .typeAlias _ _ _ => inferInstanceAs (Decidable (IsName _ ∧ ClosesFirst _ _))
  | .importFrom _ _ _ _ | .require _ _ _ _ => inferInstanceAs (Decidable (_ ∧ _ ∧ IsPath _))
  | .filler line =>
    have : Decidable (∀ x ∈ line, x ≠ '\n') := List.decidableBAll _ line
    inferInstanceAs (Decidable (_ ∧ _ ∧ _))

def shape? : Block → Option Shape
  | .function .. => some .function
  | .interface exported name _ => some (.interface (String.ofList name) exported)
  | .typeAlias exported name _ => some (.typeAlias (String.ofList name) exported)
  | .importFrom _ _ path _ => some (.importFrom (String.ofList path))
  | .require _ _ path _ => some (.require (String.ofList path))
  | .filler _ => none

def declarationAt? (offset : Nat) (b : Block) : Option Declaration :=
  b.shape?.map fun shape => ⟨offset, String.ofList b.text, shape⟩

def render (bs : List Block) : List Char := bs.flatMap text

def declarationsFrom (offset : Nat) : List Block → List Declaration
  | [] => []
  | b :: bs => (b.declarationAt? offset).toList ++ declarationsFrom (offset + b.text.length) bs

def closedHeader : Block → List Char
  | .function name params returns =>
    "export function ".toList ++ name ++ '(' :: params ++ ')' :: returnPart returns ++
      " \x7b\x7d\n".toList
  | _ => []

def typeSpec? (b : Block) : Option TypeSpec :=
  match b with
  | .interface exported name _ =>
    some ⟨.interface, String.ofList name, exported, String.ofList b.text⟩
  | .typeAlias exported name _ =>
    some ⟨.typeAlias, String.ofList name, exported, String.ofList b.text⟩
  | _ => none

def importSpec? (b : Block) : Option ImportSpec :=
  match b with
  | .importFrom _ _ path _ =>
    some ⟨.importFrom, some (String.ofList path), String.ofList b.text,
      collectTypes (String.ofList b.text)⟩
  | .require _ _ path _ =>
    some ⟨.require, some (String.ofList path), String.ofList b.text,
      collectTypes (String.ofList b.text)⟩
  | _ => none

end Block

end SourceSpecs
