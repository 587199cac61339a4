import SourceSpecs.Syntax.Grammar
import SourceSpecs.Text.Lines
import SourceSpecs.Text.Names
/-!
The custom types that a piece of source refers to: the names of types that are not built in.
Below a type with arguments only its own name counts, and a qualified name counts as a whole.

Source that does not fit the grammar is outside of this library. A parser that repairs such source
finds names in what it makes of it; here `customTypes?` has no answer, and `collectTypes`, which
always has one, gives no names.
-/
namespace SourceSpecs

def builtinTypes : List String :=
  ["string", "number", "boolean", "void", "any", "unknown", "null", "undefined", "never", "object",
    "Function"]

def isBuiltinType (name : String) : Bool := builtinTypes.contains name

namespace Syntax

/-- Declarations whose name is a type of their own. -/
def Kind.declaresType : Kind → Bool
  | .typeParameter | .typeAlias | .interface | .classDeclaration | .abstractClass | .enumeration =>
    true
  | _ => false

namespace Tree

def localName (source : List Char) (specifier : Tree) : List String :=
  match specifier.child? .alias <|> specifier.child? .name with
  | some t => [t.text source]
  | none => []

/-- The local names of the bindings that an import marks as types, one by one or all at once. -/
def typeImports (source : List Char) (statement : Tree) : List String :=
  (statement.childrenOf .importClause).flatMap fun clause =>
    (clause.childrenOf .namedImports).flatMap fun named =>
      ((named.childrenOf .importSpecifier).filter fun specifier =>
        statement.hasKeyword "type" || clause.hasKeyword "type" ||
          specifier.hasKeyword "type").flatMap (localName source)

/-- The name bound by `key: name`, where the element is no more than that. -/
def boundName (source : List Char) : List Tree → List String
  | [_, _, target] => if target.kind == .identifier then [target.text source] else []
  | _ => []

/-- Whether two nodes are of one kind and cover the same stretch. -/
def sameNode (a b : Tree) : Bool := a.kind == b.kind && a.span == b.span

def declaredName? (t : Tree) : Option Tree := if t.kind.declaresType then t.child? .name else none

/-- The names that a node refers to by itself. `declared` tells that it is the name of the
    declaration around it. -/
def ownNames (source : List Char) (declared : Bool) (t : Tree) : List String :=
  match t.kind with
  | .typeName => if declared then [] else [t.text source]
  | .pairPattern => boundName source t.children
  | .importStatement => typeImports source t
  | _ => []

mutual

/-- The names that a node and the nodes below it refer to, in the order of the text. -/
def names (source : List Char) (declared : Bool) : Tree → List String
  | .node .genericType f s cs =>
    match (Tree.node .genericType f s cs).child? .name with
    | some name => [name.text source]
    | none => []
  | .node .qualifiedName f s cs => [(Tree.node .qualifiedName f s cs).text source]
  | .node k f s cs =>
    ownNames source declared (.node k f s cs) ++
      namesOfAll source (Tree.node k f s cs).declaredName? cs

def namesOfAll (source : List Char) (declared : Option Tree) : List Tree → List String
  | [] => []
  | c :: cs => names source (declared.any (sameNode · c)) c ++ namesOfAll source declared cs

end

def customTypes (source : List Char) (t : Tree) : List String :=
  Text.sortNames ((t.names source false).filter (!isBuiltinType ·))

end Tree

end Syntax

/-- The custom types of a piece of source, read without its indent, if it fits the grammar. -/
def customTypes? (code : String) : Option (List String) :=
  let source := Text.dedent code.toList
  (Syntax.parse? source).map (Syntax.Tree.customTypes source)

def collectTypes (code : String) : List String := (customTypes? code).getD []

end SourceSpecs
