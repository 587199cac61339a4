import SourceSpecs.Spec
import SourceSpecs.Syntax.References
/-!
The functions that a piece of source defines at its top level, with their parameters as written.
-/
namespace SourceSpecs

open Syntax

namespace Signature

def typingText (source : List Char) (t : Tree) : String :=
  let written := Text.trim (t.text source).toList
  String.ofList (Text.trim ((after? [':'] written).getD written))

/-- The name of a parameter: its pattern, or what comes first in a pattern for the rest. -/
def patternText (source : List Char) (t : Tree) : String :=
  match t.kind, t.children.filter Tree.isNamed with
  | .restPattern, first :: _ => first.text source
  | _, _ => t.text source

def paramOf (source : List Char) (t : Tree) : Param where
  name := (t.child? .pattern).elim "" (patternText source)
  type := (t.child? .typing).map (typingText source)
  default := (t.child? .value).map (Tree.text source)

def paramsOf (source : List Char) (function : Tree) : List Param :=
  match function.child? .parameters with
  | some list => (list.childrenOf .parameter).map (paramOf source)
  | none => []

def specOf (source : List Char) (function : Tree) : FunctionSpec where
  name := (function.child? .name).elim "" (Tree.text source)
  params := paramsOf source function
  returnType := (function.child? .returnType).elim "void" (typingText source)
  customTypes := function.customTypes source

def isFunction (t : Tree) : Bool :=
  t.kind == .function || t.kind == .generator || t.kind == .functionExpression

/-- What an export passes on, or the statement itself. -/
def exported (t : Tree) : Tree :=
  if t.kind == .exportStatement then
    ((t.child? .declaration <|> t.child? .value)).getD t
  else t

def functionsOf (program : Tree) : List Tree :=
  (program.children.map exported).filter isFunction

end Signature

inductive ExtractionError where
  | malformedSignature
  deriving DecidableEq, Repr

def ExtractionError.message : ExtractionError → String
  | .malformedSignature => "Function signature fragment contains syntax errors"

def functionSpecs (source : List Char) : Except ExtractionError (List FunctionSpec) :=
  match parse? source with
  | some program => .ok ((Signature.functionsOf program).map (Signature.specOf source))
  | none => .error .malformedSignature

/-- The specs of the functions that a text defines, read without its indent. -/
def functionSpecsOf (code : String) : Except ExtractionError (List FunctionSpec) :=
  functionSpecs (Text.dedent code.toList)

end SourceSpecs
