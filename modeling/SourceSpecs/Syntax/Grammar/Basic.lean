import SourceSpecs.Syntax.Form
/-!
The rules of the grammar by name, and the small forms that all of them share.
-/
namespace SourceSpecs.Syntax

inductive Rule where
  | program | statement | block | declaration
  | type | typeOperand | typeArguments | typeParameters | objectType
  | typing | returnTyping | callSignature | parameters
  /-- `plain` leaves out arrow functions that name their return type: the colon then belongs to the
      conditional expression around them. -/
  | expression (plain : Bool)
  | operand (plain : Bool)
  | primary | access | arguments | parenthesized | template
  | pattern | objectPattern | arrayPattern
  | classBody | decorator
  deriving DecidableEq, Repr

namespace Rule

def all : List Rule :=
  [.program, .statement, .block, .declaration, .type, .typeOperand, .typeArguments, .typeParameters,
    .objectType, .typing, .returnTyping, .callSignature, .parameters, .expression false,
    .expression true, .operand false, .operand true, .primary, .access, .arguments, .parenthesized,
    .template, .pattern, .objectPattern, .arrayPattern, .classBody, .decorator]

theorem mem_all (r : Rule) : r ∈ all := by
  cases r with
  | expression plain => cases plain <;> decide
  | operand plain => cases plain <;> decide
  | _ => decide

end Rule

namespace Grammar

open Form

abbrev F := Form Rule

abbrev rule (r : Rule) : F := Form.rule r

abbrev token (k : Token) : F := Form.token k

abbrev glued (k : Token) : F := Form.glued k

def words (ws : List String) : List (List Char) := ws.map String.toList

def key (w : String) : F := token (.word (.keyword w.toList) w.toList)

def keys (ws : List String) : F := choice (ws.map key)

def sym (m : String) : F := token (.symbol m.toList [])

def symNot (m stops : String) : F := token (.symbol m.toList stops.toList)

def syms (ms : List (String × String)) : F := choice (ms.map fun (m, stops) => symNot m stops)

def nameBut (k : Kind) (ws : List String) : F := token (.name k (words ws))

def anyName (k : Kind) : F := nameBut k []

def dot : F := symNot "." "."

def comma : F := sym ","

def assign : F := symNot "=" "=>"

def commaList (f : F) : F := separated f comma ++ opt comma

def commaHoles (f : F) : F := opt f ++ many (comma ++ opt f)

def enclosed (left : String) (f : F) (right : String) : F :=
  sym left ++ within .never f ++ sym right

def semicolon (e : Ending) : F := sym ";" <|> ended e

def expression : F := rule (.expression false)

def expressions : F := separated expression comma

def computedName : F := node .computedName (enclosed "[" expression "]")

def propertyNameBut (ws : List String) : F :=
  nameBut .propertyName ws <|> token .privateName <|> token .string <|> token .number <|> computedName

def propertyName : F := propertyNameBut []

def memberStart : F :=
  anyName .propertyName <|> token .privateName <|> token .string <|> token .number <|>
    sym "[" <|> sym "*"

/-- A word that modifies the member after it. Alone it would be the member's name. -/
def modifier (w : String) : F := key w ++ onward (present memberStart)

def modifiers (ws : List String) : F := ws.foldr (fun w f => opt (modifier w) ++ f) nothing

def accessibility : F :=
  opt (modifier "public" <|> modifier "private" <|> modifier "protected")

def methodMark : F := modifier "get" <|> modifier "set" <|> sym "*"

def initializer : F := assign ++ field .value (within .expression expression)

def typeMark : F := field .typing (rule .typing)

end Grammar

end SourceSpecs.Syntax
