import SourceSpecs.Syntax.Grammar.Types
/-!
Patterns and expressions. How the operators of an expression bind is left open: its operands and
operators are read in a row.
-/
namespace SourceSpecs.Syntax.Grammar

open Form

def expressionWords : List String :=
  ["function", "class", "typeof", "void", "delete", "await", "yield", "this", "super", "true",
    "false", "null", "undefined", "import"]

def undefinedValue : F := token (.word .undefined "undefined".toList)

def valueName : F := nameBut .identifier expressionWords

def propertyAccess : F := token .privateName <|> anyName .propertyName

def nonNull : F := symNot "!" "="

def access : F :=
  ((dot <|> sym "?.") ++ propertyAccess) <|> (opt (sym "?.") ++ enclosed "[" expressions "]") <|>
    nonNull

def assignment (plain : Bool) : F :=
  syms [("=", "=>"), ("+=", ""), ("-=", ""), ("*=", ""), ("/=", ""), ("%=", ""), ("^=", ""),
      ("&=", ""), ("|=", ""), (">>=", ""), (">>>=", ""), ("<<=", ""), ("**=", ""), ("&&=", ""),
      ("||=", ""), ("??=", "")] ++
    rule (.expression plain)

def spread : F := sym "..." ++ expression

def arguments : F := node .arguments (enclosed "(" (commaHoles (spread <|> expression)) ")")

/-- A call, or the type arguments of a value. Angle brackets that an operand follows compare. -/
def call : F :=
  (opt (sym "?.") ++ rule .arguments) <|> rule .template <|>
    (opt (sym "?.") ++ rule .typeArguments ++
      (rule .arguments <|> absent (rule (.operand false))))

def place : F :=
  node .expression ((valueName <|> key "this" <|> key "super") ++ rule .access ++
    many (many (rule .arguments) ++ rule .access))

def patternTarget : F :=
  rule .objectPattern <|> rule .arrayPattern <|> place <|> undefinedValue <|> valueName

def restPattern : F := node .restPattern (sym "..." ++ patternTarget)

def pattern : F := restPattern <|> patternTarget

def defaultValue : F := assign ++ expression

def pairPattern : F :=
  node .pairPattern (propertyName ++ sym ":" ++ rule .pattern ++ opt defaultValue)

def objectPattern : F :=
  node .objectPattern (enclosed "\x7b" (commaHoles (pairPattern <|> restPattern <|>
    ((rule .objectPattern <|> rule .arrayPattern) ++ defaultValue) <|>
    (anyName .identifier ++ opt defaultValue))) "\x7d")

def arrayPattern : F :=
  node .arrayPattern (enclosed "[" (commaHoles (rule .pattern ++ opt defaultValue)) "]")

def binaryOperator : F :=
  syms [(">>>", "="), (">>", ">="), ("<<", "="), (">=", ""), ("<=", ""), ("===", ""), ("==", "="),
      ("!==", ""), ("!=", "="), ("&&", "="), ("||", "="), ("??", "="), ("**", "="), ("*", "*="),
      ("+", "+="), ("-", "-="), ("/", "="), ("%", "="), ("&", "&="), ("|", "|="), ("^", "="),
      ("<", "<="), (">", ">=")] <|>
    keys ["in", "instanceof"]

/-- Of a dotted name after `as` the first two parts name the type and the others access the value,
    unless the name is that of an array's elements. -/
def shortQualifiedType : F :=
  node .type (node .qualifiedName (nameBut .identifier typeWords ++ dot ++ anyName .identifier)) ++
    present (dot ++ anyName .propertyName) ++
    absent (Form.some (dot ++ anyName .propertyName) ++ sym "[" ++ sym "]")

def assertedType : F := shortQualifiedType <|> rule .type

def conditional (plain : Bool) : F :=
  (token .condition ++ within .never (rule (.expression false)) ++ sym ":" ++
      rule (.expression plain)) <|>
    (token .condition ++ within .never (rule (.expression true)) ++ sym ":" ++
      rule (.expression plain))

def continuation (plain : Bool) : F := choice [
  rule .access ++ opt (assignment plain), call, sym "++", sym "--",
  key "as" ++ (key "const" <|> assertedType), key "satisfies" ++ assertedType,
  binaryOperator ++ rule (.operand plain), conditional plain]

def expressionOf (plain : Bool) : F :=
  node .expression (rule (.operand plain) ++ many (onward (continuation plain)))

def functionHead : F := within .never (rule .callSignature)

def asyncMark : F := opt (key "async")

def functionExpression : F :=
  node .functionExpression (asyncMark ++ key "function" ++ opt (field .name (anyName .identifier)) ++
    functionHead ++ rule .block)

def generatorExpression : F :=
  node .generatorExpression (asyncMark ++ key "function" ++ sym "*" ++
    opt (field .name (anyName .identifier)) ++ functionHead ++ rule .block)

def arrowHead (plain : Bool) : F :=
  valueName <|>
    if plain then within .never (opt (rule .typeParameters) ++ rule .parameters) else functionHead

def arrowFunction (plain : Bool) : F :=
  node .arrowFunction (((key "async" ++ arrowHead plain ++ sym "=>") <|>
    (arrowHead plain ++ sym "=>")) ++ (rule .block <|> rule (.expression plain)))

def superclass : F :=
  node .expression (rule .primary ++ many (rule .access <|> rule .arguments <|> rule .template <|>
    (rule .typeArguments ++ rule .arguments))) ++ opt (rule .typeArguments)

def implemented : F := key "implements" ++ separated (rule .type) comma

def heritage : F :=
  opt (node .heritage (within .never
    ((key "extends" ++ separated superclass comma ++ opt implemented) <|> implemented)))

def classRest : F := opt (rule .typeParameters) ++ heritage ++ rule .classBody

def className : F := field .name (nameBut .typeName ["extends", "implements"])

def classExpression : F :=
  node .classExpression (many (rule .decorator) ++ key "class" ++ opt className ++ classRest)

def parenthesized : F := enclosed "(" (expressions ++ opt (rule .typing)) ")"

def array : F := node .array (enclosed "[" (commaHoles (spread <|> expression)) "]")

def methodModifiers : F := accessibility ++ modifiers ["static", "override", "readonly", "async"]

def methodRest : F := opt (sym "?") ++ rule .callSignature ++ rule .block

def objectMember : F := node .member (choice [
  spread, methodModifiers ++ methodMark ++ propertyName ++ methodRest,
  methodModifiers ++ propertyName ++ ((sym ":" ++ expression) <|> methodRest),
  anyName .identifier])

def object : F := node .object (enclosed "\x7b" (commaHoles objectMember) "\x7d")

def template : F :=
  node .template (token backtick ++
    many (glued .templateText <|> glued .escape <|> templateHole expressions) ++ glued backtick)

def importValue : F :=
  key "import" ++ ((dot ++ key "meta") <|> present (sym "(" <|> sym "<"))

def literalValue : F := choice [
  template, array, object, token .regularExpression, token .number, token .string, importValue,
  keys ["this", "super", "true", "false", "null"], undefinedValue, token .privateName]

def definition : F := functionExpression <|> generatorExpression <|> classExpression

def primary : F := choice [definition, rule .parenthesized, valueName, literalValue]

def unaryOperator : F :=
  syms [("++", ""), ("--", ""), ("!", "="), ("~", ""), ("+", "="), ("-", "=")] <|>
    keys ["typeof", "void", "delete", "await"]

def yielding (plain : Bool) : F :=
  key "yield" ++ ((sym "*" ++ rule (.expression plain)) <|> opt (onward (rule (.expression plain))))

def construction : F := key "new" ++ ((dot ++ key "target") <|> rule .primary)

def destructuring : F := (rule .objectPattern <|> rule .arrayPattern) ++ defaultValue

def operand (plain : Bool) : F := choice [
  unaryOperator ++ rule (.operand plain), yielding plain, arrowFunction plain,
  rule .typeArguments ++ rule (.operand plain), construction, definition, destructuring,
  (rule .parenthesized <|> valueName) ++ opt (onward (assignment plain)), literalValue]

end SourceSpecs.Syntax.Grammar
