import SourceSpecs.Syntax.Grammar.Basic
/-!
Types and signatures.
-/
namespace SourceSpecs.Syntax.Grammar

open Form

def bar : F := symNot "|" "|\x7d"

def ampersand : F := symNot "&" "&"

def typeWords : List String :=
  ["any", "number", "boolean", "string", "symbol", "unique", "void", "unknown", "never", "object",
    "typeof", "keyof", "this", "const", "true", "false", "null", "undefined", "new", "abstract",
    "readonly", "infer", "import"]

def predefinedType : F :=
  keys ["any", "number", "boolean", "string", "symbol", "void", "unknown", "never", "object"] <|>
    (key "unique" ++ key "symbol")

def literalType : F :=
  token .string <|> (opt (sym "-" <|> sym "+") ++ token .number) <|>
    keys ["true", "false", "null", "undefined"]

def qualifiedName : F :=
  node .qualifiedName (nameBut .identifier typeWords ++ Form.some (dot ++ anyName .identifier))

def plainTypeName : F := nameBut .typeName typeWords

def namedType : F :=
  node .genericType (field .name (qualifiedName <|> plainTypeName) ++ rule .typeArguments) <|>
    qualifiedName <|> plainTypeName

def typeArguments : F := node .typeArguments (enclosed "<" (commaList (rule .type)) ">")

def constraint : F := (key "extends" <|> sym ":") ++ rule .type

def typeParameter : F :=
  node .typeParameter (opt (key "const") ++ field .name (nameBut .typeName ["const"]) ++
    opt constraint ++ opt (sym "=" ++ rule .type))

def typeParameters : F := node .typeParameters (enclosed "<" (commaList typeParameter) ">")

def typePredicate : F :=
  (key "this" <|> anyName .identifier) ++ onward (key "is") ++ rule .type

def assertion : F := key "asserts" ++ (typePredicate <|> key "this" <|> anyName .identifier)

def returnType : F := assertion <|> typePredicate <|> (absent (key "asserts") ++ rule .type)

def functionType : F :=
  opt (rule .typeParameters) ++ rule .parameters ++ sym "=>" ++ returnType

def constructorType : F :=
  opt (key "abstract") ++ key "new" ++ opt (rule .typeParameters) ++ rule .parameters ++
    sym "=>" ++ rule .type

def importCall : F := key "import" ++ rule .arguments

def queriedProperty : F := token .privateName <|> anyName .propertyName

def typeQuery : F :=
  key "typeof" ++ (importCall <|> key "this" <|> anyName .identifier) ++
    many (onward ((dot ++ queriedProperty) <|> (sym "?." ++ queriedProperty) <|>
      enclosed "[" (token .string <|> token .number <|> predefinedType) "]" <|>
      rule .arguments <|> rule .typeArguments))

def importType : F :=
  importCall ++ many (onward ((dot ++ queriedProperty) <|> rule .arguments))

def inferredType : F :=
  node .inferredType (key "infer" ++ field .name (anyName .typeName) ++
    opt (onward (key "extends" ++ rule .type)))

def tupleElement : F :=
  (((node .restPattern (sym "..." ++ rule .pattern)) <|> anyName .identifier) ++
      opt (sym "?") ++ rule .typing) <|>
    (sym "..." ++ rule .type) <|> (rule .type ++ opt (sym "?"))

def tupleType : F := node .tupleType (enclosed "[" (opt (commaList tupleElement)) "]")

def templateHole (f : F) : F := glued (.symbol "$\x7b".toList []) ++ within .never f ++ sym "\x7d"

def backtick : Token := .symbol ['\x60'] []

def templateType : F :=
  node .template (token backtick ++
    many (glued .templateText <|> templateHole (rule .type)) ++ glued backtick)

/-- A type without the operators that may follow it. A union may open with its mark. -/
def typeOperand : F :=
  many (bar <|> ampersand) ++ choice [
    functionType, constructorType, key "readonly" ++ rule .type, key "keyof" ++ rule .typeOperand,
    inferredType, typeQuery, importType, sym "?" ++ rule .typeOperand, predefinedType, literalType,
    key "this", key "const", sym "*", templateType, rule .objectType, tupleType,
    enclosed "(" (rule .type) ")", namedType]

def conditionalType : F :=
  key "extends" ++ within .never (rule .type ++ sym "?" ++ rule .type) ++ sym ":" ++ rule .type

def typeOperator : F := choice [
  sym "[" ++ sym "]", enclosed "[" (rule .type) "]", bar ++ rule .typeOperand,
  ampersand ++ rule .typeOperand, conditionalType]

def type : F := node .type (rule .typeOperand ++ many (onward typeOperator))

def typing : F := node .typing (sym ":" ++ rule .type)

def returnTyping : F := node .typing (sym ":" ++ returnType)

def callSignature : F :=
  opt (rule .typeParameters) ++ field .parameters (rule .parameters) ++
    opt (field .returnType (rule .returnTyping))

def parameterModifier (w : String) : F :=
  key w ++ present (anyName .identifier <|> sym "\x7b" <|> sym "[" <|> sym "...")

def parameter : F :=
  node .parameter (many (rule .decorator) ++
    opt (parameterModifier "public" <|> parameterModifier "private" <|>
      parameterModifier "protected") ++
    opt (parameterModifier "override") ++ opt (parameterModifier "readonly") ++
    field .pattern (rule .pattern <|> key "this") ++ opt (sym "?") ++ opt typeMark ++
    opt initializer)

def parameters : F := node .parameters (enclosed "(" (opt (commaList parameter)) ")")

def constructSignature : F :=
  opt (key "abstract") ++ key "new" ++ opt (rule .typeParameters) ++ rule .parameters ++
    opt (rule .typing)

def mappedKey : F :=
  node .mappedKey (field .name (anyName .typeName) ++ key "in" ++ rule .type ++
    opt (key "as" ++ rule .type))

def indexTyping : F :=
  node .typing ((sym "-?:" <|> sym "+?:" <|> sym "?:" <|> sym ":") ++ rule .type)

def indexSignature : F :=
  opt (opt (sym "-" <|> sym "+") ++ key "readonly") ++
    enclosed "[" (mappedKey <|> (anyName .identifier ++ sym ":" ++ rule .type)) "]" ++
    indexTyping

def signatureModifiers : F :=
  accessibility ++ modifiers ["static", "override", "readonly", "async"]

def memberNameBut (ws : List String) : F := propertyNameBut ws ++ opt (sym "?")

def typeMember : F := node .member (choice [
  rule .callSignature, constructSignature, indexSignature,
  signatureModifiers ++ methodMark ++ memberNameBut [] ++ rule .callSignature,
  signatureModifiers ++ memberNameBut ["abstract"] ++
    (rule .callSignature <|> opt (rule .typing))])

def memberSeparator : F := comma <|> semicolon .declaration

def typeMembers : F :=
  opt (opt (comma <|> sym ";") ++ separated (within .declaration typeMember) memberSeparator ++
    opt memberSeparator)

def objectType : F :=
  node .objectType ((sym "\x7b|" <|> sym "\x7b") ++ typeMembers ++ (sym "|\x7d" <|> sym "\x7d"))

end SourceSpecs.Syntax.Grammar
