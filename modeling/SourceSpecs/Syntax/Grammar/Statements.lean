import SourceSpecs.Syntax.Grammar.Expressions
/-!
Statements, declarations and the whole text.
-/
namespace SourceSpecs.Syntax.Grammar

open Form

def statementWords : List String :=
  ["var", "const", "if", "switch", "for", "while", "do", "try", "with", "break", "continue",
    "return", "throw", "debugger", "enum", "interface", "abstract"]

def sameLine (f : F) : F := within .expression (onward f)

def variableDeclarator : F :=
  node .declarator ((anyName .identifier ++ sym "!" ++ within .declaration typeMark) <|>
    (field .name (rule .objectPattern <|> rule .arrayPattern <|> anyName .identifier) ++
      opt (within .declaration typeMark) ++ opt initializer))

def variablesOf (opening : F) : F :=
  node .variable (opening ++ separated variableDeclarator comma ++ semicolon .declaration)

def variableStatement : F :=
  variablesOf (key "var") <|> variablesOf (key "const") <|>
    variablesOf (key "let" ++ sameLine (present (anyName .identifier <|> sym "[" <|> sym "\x7b")))

def asyncFunction : F := opt (key "async" ++ sameLine (present (key "function"))) ++ key "function"

def signatureHead : F := field .name (anyName .identifier) ++ within .signature (rule .callSignature)

def functionDeclaration : F := choice [
  node .function (asyncFunction ++ signatureHead ++ rule .block),
  node .generator (asyncFunction ++ sym "*" ++ signatureHead ++ rule .block),
  node .functionSignature (asyncFunction ++ signatureHead ++ semicolon .signature)]

def classDeclaration : F :=
  node .classDeclaration (many (rule .decorator) ++ key "class" ++ className ++ classRest) <|>
    node .abstractClass (many (rule .decorator) ++ key "abstract" ++ key "class" ++ className ++
      classRest)

def typeAlias : F :=
  node .typeAlias (key "type" ++ sameLine (field .name (anyName .typeName)) ++
    opt (rule .typeParameters) ++ sym "=" ++ within .declaration (rule .type) ++
    semicolon .declaration)

def interfaceBase : F :=
  node .genericType (field .name (qualifiedName <|> anyName .typeName) ++ rule .typeArguments) <|>
    qualifiedName <|> anyName .typeName

def interface : F :=
  node .interface (key "interface" ++ field .name (anyName .typeName) ++ opt (rule .typeParameters) ++
    opt (node .heritage (key "extends" ++ separated interfaceBase comma)) ++ rule .objectType)

def enumMember : F := propertyName ++ opt initializer

def enumeration : F :=
  node .enumeration (opt (key "const") ++ key "enum" ++ field .name (anyName .identifier) ++
    node .enumBody (enclosed "\x7b" (opt (commaList enumMember)) "\x7d"))

def dottedName : F := anyName .identifier ++ many (dot ++ anyName .identifier)

def namespaceDeclaration : F :=
  node .namespaceDeclaration ((key "namespace" <|> key "module") ++
    sameLine (token .string <|> dottedName) ++ opt (rule .block))

def importAlias : F :=
  node .importStatement (key "import" ++ anyName .identifier ++ sym "=" ++ dottedName ++
    semicolon .declaration)

def ambient : F :=
  node .ambient (key "declare" ++ sameLine (rule .declaration <|> (key "global" ++ rule .block) <|>
    (key "module" ++ dot ++ anyName .identifier ++ sym ":" ++ within .declaration (rule .type) ++
      semicolon .declaration)))

def declaration : F := choice [
  functionDeclaration, classDeclaration, enumeration, variableStatement, typeAlias, interface,
  namespaceDeclaration, importAlias, ambient]

def source : F := key "from" ++ token .string

def attributes : F := opt (key "with" ++ object)

/-- A binding of a module's export. Marked as a type it has a name other than `as`. -/
def importSpecifier : F :=
  node .importSpecifier (
    ((key "type" <|> key "typeof") ++ specifierName ["as"]) <|> specifierName [])
where
  newName : F := key "as" ++ field .alias (anyName .identifier)
  specifierName (ws : List String) : F :=
    ((token .string <|> field .name (token (.word .identifier "default".toList))) ++ newName) <|>
      (field .name (nameBut .identifier ws) ++ opt newName)

def namespaceImport : F := node .namespaceImport (sym "*" ++ key "as" ++ anyName .identifier)

def namedImports : F :=
  node .namedImports (enclosed "\x7b" (opt (commaList importSpecifier)) "\x7d")

def importClause : F :=
  node .importClause (namespaceImport <|> namedImports <|>
    (anyName .identifier ++ opt (comma ++ (namespaceImport <|> namedImports))))

def importRequire : F :=
  anyName .identifier ++ sym "=" ++ key "require" ++ enclosed "(" (token .string) ")"

def importTail : F := ((importClause ++ source) <|> importRequire) ++ attributes

def importStatement : F :=
  node .importStatement (key "import" ++
      (((key "type" <|> key "typeof") ++ importTail) <|> importTail <|>
        (token .string ++ attributes)) ++
      semicolon .declaration)

def exportedName : F := token .string <|> anyName .identifier

def exportClause : F :=
  node .exportClause (enclosed "\x7b" (opt (commaList
    (((key "type" ++ exportName ["as"]) <|> exportName [])))) "\x7d")
where
  exportName (ws : List String) : F :=
    (token .string <|> nameBut .identifier ws) ++ opt (key "as" ++ exportedName)

def exportDefault : F :=
  key "default" ++ (field .declaration (rule .declaration) <|>
    (field .value functionExpression ++ semicolon .expression) <|>
    (field .value (within .expression expression) ++ semicolon .expression))

def exportStatement : F :=
  node .exportStatement (many (rule .decorator) ++ key "export" ++ sameLine nothing ++ choice [
    sym "*" ++ opt (key "as" ++ exportedName) ++ source ++ attributes ++ semicolon .declaration,
    opt (key "type") ++ exportClause ++ opt (source ++ attributes) ++ semicolon .declaration,
    exportDefault, field .declaration (rule .declaration),
    sym "=" ++ within .expression expression ++ semicolon .expression,
    key "as" ++ key "namespace" ++ anyName .identifier ++ semicolon .declaration])

def block : F := node .block (sym "\x7b" ++ many (rule .statement) ++ sym "\x7d")

def condition : F := rule .parenthesized

def ifStatement : F :=
  key "if" ++ condition ++ rule .statement ++ opt (key "else" ++ rule .statement)

def switchCase : F :=
  ((key "case" ++ within .never expressions) <|> key "default") ++ sym ":" ++
    many (absent (key "case" <|> key "default") ++ rule .statement)

def switchStatement : F :=
  key "switch" ++ condition ++ sym "\x7b" ++ many switchCase ++ sym "\x7d"

def forTarget : F :=
  ((key "var" <|> key "let" <|> key "const") ++
      (rule .objectPattern <|> rule .arrayPattern <|> anyName .identifier) ++ opt defaultValue) <|>
    patternTarget <|> rule .parenthesized

def forStatement : F :=
  key "for" ++ opt (key "await") ++
    (enclosed "(" (forTarget ++ (key "in" <|> key "of") ++ expressions) ")" <|>
      (sym "(" ++ (variableStatement <|> (within .never (opt expressions) ++ sym ";")) ++
        within .never (opt expressions) ++ sym ";" ++ within .never (opt expressions) ++ sym ")")) ++
    rule .statement

def whileStatement : F := key "while" ++ condition ++ rule .statement

def doStatement : F :=
  key "do" ++ rule .statement ++ key "while" ++ condition ++ opt (semicolon .declaration)

def catchClause : F :=
  key "catch" ++ opt (enclosed "(" ((rule .objectPattern <|> rule .arrayPattern <|>
    anyName .identifier) ++ opt (rule .typing)) ")") ++ rule .block

def tryStatement : F :=
  key "try" ++ rule .block ++ opt catchClause ++ opt (key "finally" ++ rule .block)

def jumpStatement : F :=
  (key "break" <|> key "continue") ++ opt (within .declaration (onward (anyName .label))) ++
    semicolon .declaration

def returnStatement : F :=
  key "return" ++
    opt (within .declaration (onward (within .expression expressions))) ++ semicolon .expression

def labelled : F := nameBut .label (expressionWords ++ statementWords) ++ sym ":" ++ rule .statement

/-- Where a word that could be a value opens a declaration all the same. -/
def declarationOpening : F :=
  (key "export" ++ sameLine (symNot "*" "*=" <|> assign <|> key "as")) <|>
    (key "let" ++ sameLine (sym "["))

def expressionStatement : F :=
  absent (keys statementWords <|> declarationOpening) ++ within .expression expressions ++ semicolon .expression

def statement : F := choice [
  rule .block, exportStatement, importStatement, rule .declaration,
  node .statement (choice [
    sym ";", ifStatement, switchStatement, forStatement, whileStatement, doStatement, tryStatement,
    key "with" ++ condition ++ rule .statement, jumpStatement, returnStatement,
    key "throw" ++ within .expression expressions ++ semicolon .expression,
    key "debugger" ++ semicolon .declaration, labelled, expressionStatement])]

def memberEnd (e : Ending) : F := comma <|> semicolon e

def fieldModifiers : F :=
  opt (modifier "declare") ++ accessibility ++
    modifiers ["declare", "static", "abstract", "override", "readonly", "abstract", "accessor"]

def classMemberName : F := propertyNameBut ["abstract", "accessor"]

def methodOf (marks : F) : F :=
  accessibility ++ modifiers ["static", "abstract", "override", "readonly", "async"] ++ marks ++
    opt (sym "?") ++ within .signature (rule .callSignature) ++
    ((rule .block ++ opt (semicolon .declaration)) <|> memberEnd .signature)

def classField : F :=
  fieldModifiers ++ classMemberName ++ opt (sym "?" <|> nonNull) ++ opt typeMark ++ opt initializer ++
    memberEnd .declaration

def classMember : F := node .member (sym ";" <|>
  within .declaration (choice [
    key "static" ++ rule .block,
    many (rule .decorator) ++ methodOf (methodMark ++ propertyName),
    many (rule .decorator) ++ methodOf classMemberName,
    modifiers ["static"] ++ indexSignature ++ memberEnd .declaration,
    many (rule .decorator) ++ classField]))

def classBody : F := node .classBody (sym "\x7b" ++ many classMember ++ sym "\x7d")

def decorator : F :=
  node .decorator (sym "@" ++ (rule .parenthesized <|>
    (dottedName ++ opt (opt (rule .typeArguments) ++ rule .arguments))))

def program : F := opt (glued .interpreter) ++ many (rule .statement) ++ finish

end SourceSpecs.Syntax.Grammar
