import SourceSpecs.FileReport
import SourceSpecs.Json.Printer
/-!
The tools on offer: what they are called, what they ask for, and what they answer. Every tool takes
one text as its argument, and every call is answered by a JSON text.
-/
namespace SourceSpecs

inductive Tool where
  | parseSpecs | parseFile | collectTypes | checkBuiltin
  deriving DecidableEq, Repr

namespace Tool

def all : List Tool := [parseSpecs, parseFile, collectTypes, checkBuiltin]

def name : Tool → String
  | parseSpecs => "parse_specs"
  | parseFile => "parse_file"
  | collectTypes => "collect_custom_types"
  | checkBuiltin => "is_builtin_type"

def description : Tool → String
  | parseSpecs =>
    "Extract exported function signatures, type/interface declarations and import statements from " ++
      "TypeScript source text, each with the custom (non-builtin) types it references."
  | parseFile =>
    "Read a TypeScript file and extract its function, type and import specs. Relative paths resolve " ++
      "against IPCSPEC_PROJECT_PATH or the working directory."
  | collectTypes =>
    "Collect the custom (non-builtin) type names referenced in an arbitrary TypeScript fragment. " ++
      "Generic type arguments are not collected."
  | checkBuiltin =>
    "Check whether a type name is a reserved builtin (string, number, boolean, void, any, unknown, " ++
      "null, undefined, never, object, Function)."

def argument : Tool → String
  | parseSpecs => "source"
  | parseFile => "path"
  | collectTypes => "code"
  | checkBuiltin => "type_name"

def argumentDescription : Tool → String
  | parseSpecs => "TypeScript source text"
  | parseFile => "Path to a .ts file (absolute or relative, supports ~ for home directory)"
  | collectTypes => "TypeScript fragment (function, type alias, import statement, ...)"
  | checkBuiltin => "Type name to check"

def inputSchema (t : Tool) : Json :=
  .object [("type", .string "object"),
    ("properties", .object [(t.argument,
      .object [("type", .string "string"), ("description", .string t.argumentDescription)])]),
    ("required", .strings [t.argument])]

def toJson (t : Tool) : Json :=
  .object [("name", .string t.name), ("description", .string t.description),
    ("inputSchema", t.inputSchema)]

def ofName? (name : String) : Option Tool := all.find? (·.name == name)

def projectVariable : String := "IPCSPEC_PROJECT_PATH"

def answer (w : Workspace) (t : Tool) (text : String) : Except Failure Json :=
  match t with
  | parseSpecs => (extract text).result.map Contents.summary |>.mapError .extraction
  | parseFile =>
    (FileReport.ofPath w text (w.environment.value? projectVariable)
      (SizeLimit.ofEnvironment w.environment)).map FileReport.toJson
  | collectTypes =>
    let types := SourceSpecs.collectTypes text
    .ok (.object [("count", .number types.length), ("custom_types", .strings types)])
  | checkBuiltin =>
    .ok (.object [("type_name", .string text), ("is_builtin", .bool (isBuiltinType text))])

inductive CallError where
  | unknownTool (name : String)
  | missingArgument (name : String)
  | failed (f : Failure)
  deriving DecidableEq, Repr

def CallError.message : CallError → String
  | .unknownTool name => "Unknown tool: " ++ name
  | .missingArgument name => "'" ++ name ++ "'"
  | .failed f => f.message

def run (w : Workspace) (name : String) (arguments : List (String × String)) :
    Except CallError Json :=
  match ofName? name with
  | none => .error (.unknownTool name)
  | some t =>
    match arguments.lookup t.argument with
    | none => .error (.missingArgument t.argument)
    | some text => (t.answer w text).mapError .failed

/-- The answer to a call. An error is an answer as well. -/
def result (w : Workspace) (name : String) (arguments : List (String × String)) : Json :=
  match run w name arguments with
  | .ok j => j
  | .error e => .object [("error", .string e.message)]

def call (w : Workspace) (name : String) (arguments : List (String × String)) : String :=
  (result w name arguments).render

end Tool

end SourceSpecs
