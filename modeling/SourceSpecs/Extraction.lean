import SourceSpecs.Signature
/-!
Extraction of the specs of a source text, with a record of what was done. The text is scanned for
declarations; types and imports are reported one by one, and all function headers together, each
closed with an empty body.
-/
namespace SourceSpecs

inductive Event where
  | scanned (kind : Declaration.Kind) (offset : Nat)
  | rejected (signatures : String)
  | parsed (functions types imports : Nat)
  deriving DecidableEq, Repr

namespace Event

inductive Level where
  | debug | warning
  deriving DecidableEq, Repr

def Level.label : Level → String
  | .debug => "DEBUG"
  | .warning => "WARNING"

def level : Event → Level
  | .rejected _ => .warning
  | _ => .debug

def message : Event → String
  | .scanned kind offset =>
    "Scanned " ++ kind.label ++ " declaration at offset " ++ toString offset
  | .rejected signatures => "Failed to parse function signatures:\n" ++ signatures
  | .parsed f t i =>
    "Parsed " ++ toString f ++ " functions, " ++ toString t ++ " types, " ++ toString i ++ " imports"

end Event

namespace Extraction

/-- A function's header with an empty body. -/
def closeHeader (d : Declaration) : List Char := Text.trimEnd d.text.toList ++ ['}', '\n']

def signatures (ds : List Declaration) : List Char :=
  (ds.filter (·.kind == .function)).flatMap closeHeader

def typeSpec? (d : Declaration) : Option TypeSpec :=
  match d.shape with
  | .interface name exported | .typeAlias name exported =>
    some ⟨d.kind, name, exported, d.text⟩
  | _ => none

def importSpec? (d : Declaration) : Option ImportSpec :=
  match d.shape with
  | .importFrom path | .require path =>
    some ⟨d.kind, some path, d.text, collectTypes d.text⟩
  | _ => none

end Extraction

/-- What comes of reading a text: the record, and the specs unless a signature is malformed. -/
structure Extraction where
  log : List Event
  result : Except ExtractionError Contents

open Extraction in
def Extraction.ofDeclarations (ds : List Declaration) : Extraction :=
  let headers := signatures ds
  let scanned := ds.map fun d => Event.scanned d.kind d.offset
  match functionSpecs headers with
  | .ok functions =>
    let types := ds.filterMap typeSpec?
    let imports := ds.filterMap importSpec?
    ⟨scanned ++ [.parsed functions.length types.length imports.length],
      .ok ⟨functions, types, imports⟩⟩
  | .error e => ⟨scanned ++ [.rejected (String.ofList headers)], .error e⟩

/-- The specs of a text are those of its headers, with its types and imports. -/
theorem Extraction.result_ofDeclarations (ds : List Declaration) :
    (ofDeclarations ds).result = (functionSpecs (signatures ds)).map fun functions =>
      ⟨functions, ds.filterMap typeSpec?, ds.filterMap importSpec?⟩ := by
  rw [ofDeclarations]
  cases functionSpecs (signatures ds) with
  | error e => rfl
  | ok functions => rfl

def extract (source : String) : Extraction :=
  Extraction.ofDeclarations (Declaration.scan (Text.dedent source.toList))

end SourceSpecs
