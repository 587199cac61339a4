import SourceSpecs.Declaration.Basic
import SourceSpecs.Text.Names
/-!
What is reported about a source text: its exported functions, its types and its imports.
-/
namespace SourceSpecs

structure Param where
  name : String
  type : Option String := none
  default : Option String := none
  deriving DecidableEq, Repr

/-- The name is empty for a function without one. -/
structure FunctionSpec where
  name : String
  params : List Param := []
  returnType : String := "void"
  customTypes : List String := []
  deriving DecidableEq, Repr

structure TypeSpec where
  kind : Declaration.Kind
  name : String
  isExported : Bool
  definition : String
  deriving DecidableEq, Repr

structure ImportSpec where
  kind : Declaration.Kind
  fromPath : Option String
  definition : String
  customTypes : List String := []
  deriving DecidableEq, Repr

structure Contents where
  functions : List FunctionSpec := []
  types : List TypeSpec := []
  imports : List ImportSpec := []
  deriving DecidableEq, Repr

def Contents.isEmpty (c : Contents) : Bool :=
  c.functions.isEmpty && c.types.isEmpty && c.imports.isEmpty

def Param.shownType (p : Param) : String :=
  match p.type with
  | none | some "" => "any"
  | some t => t

def Param.typed (p : Param) : String := p.name ++ ": " ++ p.shownType

namespace FunctionSpec

def typedParams (f : FunctionSpec) : String := ", ".intercalate (f.params.map Param.typed)

def untypedParams (f : FunctionSpec) : String := ", ".intercalate (f.params.map Param.name)

end FunctionSpec

end SourceSpecs
