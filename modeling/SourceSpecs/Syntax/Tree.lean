import SourceSpecs.Text.Cursor
/-!
Trees of a source text. Every node has a kind, the stretch of text it covers and its children in
the order of the text. Comments are nodes as well.
-/
namespace SourceSpecs.Syntax

inductive Kind where
  | comment
  | keyword (word : List Char)
  | symbol (mark : List Char)
  | identifier | undefined | propertyName | privateName | computedName | typeName | label
  | number | string | regularExpression | templateText | escape
  | program | statement | block
  | importStatement | importClause | namedImports | importSpecifier | namespaceImport
  | exportStatement | exportClause
  | function | generator | functionExpression | generatorExpression | arrowFunction
  | functionSignature | parameters | parameter | typing
  | variable | declarator
  | classDeclaration | abstractClass | classExpression | heritage | classBody | member | decorator
  | interface | typeAlias | enumeration | enumBody | namespaceDeclaration | ambient
  | expression | object | array | template | arguments
  | objectPattern | arrayPattern | pairPattern | restPattern
  | type | genericType | qualifiedName | typeArguments | typeParameters | typeParameter
  | objectType | tupleType | mappedKey | inferredType
  deriving DecidableEq, Repr

inductive Field where
  | name | alias | declaration | value | parameters | pattern | typing | returnType
  deriving DecidableEq, Repr

inductive Tree where
  | node (kind : Kind) (field : Option Field) (span : Span) (children : List Tree)
  deriving Repr

namespace Tree

def kind : Tree → Kind
  | node k _ _ _ => k

def field : Tree → Option Field
  | node _ f _ _ => f

def span : Tree → Span
  | node _ _ s _ => s

def children : Tree → List Tree
  | node _ _ _ cs => cs

def leaf (k : Kind) (s : Span) : Tree := node k none s []

def as (f : Field) : Tree → Tree
  | node k _ s cs => node k (some f) s cs

/-- Keywords and marks have no name of their own; all other nodes do. -/
def isNamed (t : Tree) : Bool :=
  match t.kind with
  | .keyword _ | .symbol _ => false
  | _ => true

def child? (t : Tree) (f : Field) : Option Tree := t.children.find? fun c => c.field == some f

def childrenOf (t : Tree) (k : Kind) : List Tree := t.children.filter fun c => c.kind == k

def hasKeyword (t : Tree) (word : String) : Bool :=
  t.children.any fun c => c.kind == .keyword word.toList

def text (source : List Char) (t : Tree) : String := String.ofList (t.span.slice source)

end Tree

end SourceSpecs.Syntax
