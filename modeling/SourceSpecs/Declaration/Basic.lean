import SourceSpecs.Declaration.Search
/-!
Declarations of a source text: its fragments that have one of the five forms, in order.
-/
namespace SourceSpecs

namespace Declaration

inductive Shape where
  | function
  | interface (name : String) (exported : Bool)
  | typeAlias (name : String) (exported : Bool)
  | importFrom (path : String)
  | require (path : String)
  deriving DecidableEq, Repr

inductive Kind where
  | function | interface | typeAlias | importFrom | require
  deriving DecidableEq, Repr

def Kind.label : Kind → String
  | .function => "function"
  | .interface => "interface"
  | .typeAlias => "type"
  | .importFrom => "import"
  | .require => "require"

def Shape.kind : Shape → Kind
  | .function => .function
  | .interface .. => .interface
  | .typeAlias .. => .typeAlias
  | .importFrom _ => .importFrom
  | .require _ => .require

end Declaration

structure Declaration where
  offset : Nat
  text : String
  shape : Declaration.Shape
  deriving DecidableEq, Repr

namespace Declaration

def kind (d : Declaration) : Kind := d.shape.kind

def name? (d : Declaration) : Option String :=
  match d.shape with
  | .interface name _ | .typeAlias name _ => some name
  | _ => none

def isExported (d : Declaration) : Bool :=
  match d.shape with
  | .interface _ exported | .typeAlias _ exported => exported
  | _ => false

def fromPath? (d : Declaration) : Option String :=
  match d.shape with
  | .importFrom path | .require path => some path
  | _ => none

def part (m : Match) (s : Span) : String :=
  String.ofList ((⟨s.start - m.start, s.stop - m.start⟩ : Span).slice m.text)

def shapeOf (m : Match) : Capture → Shape
  | .function _ => .function
  | .interface _ exported name => .interface (part m name) exported.isSome
  | .typeAlias _ exported name => .typeAlias (part m name) exported.isSome
  | .importFrom _ path => .importFrom (part m path)
  | .require _ path => .require (part m path)

def ofMatch (m : Match) : List Declaration :=
  m.captures.map fun capture => ⟨m.start, String.ofList m.text, shapeOf m capture⟩

/-- The declarations of a text, from left to right. What has no form is passed over. -/
def scan (t : List Char) : List Declaration := (Pattern.declarations.all t).flatMap ofMatch

end Declaration

end SourceSpecs
