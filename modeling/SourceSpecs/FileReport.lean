import SourceSpecs.Report
import SourceSpecs.SizeLimit
import SourceSpecs.Text.LineEnding
import SourceSpecs.Text.Utf8
import SourceSpecs.Workspace
/-!
Reports on source files. A file is read only if it exists, has the ending of a source file and is not
too large.
-/
namespace SourceSpecs

inductive Refusal where
  | notFound (place : Place)
  | unsupported (name : String)
  | tooLarge (size : Nat) (limit : Int)
  deriving DecidableEq, Repr

def Refusal.message : Refusal → String
  | .notFound place => "File not found: " ++ place.text
  | .unsupported name =>
    "Unsupported file type: " ++ (if suffix name = "" then name else suffix name)
  | .tooLarge size limit =>
    "File too large: " ++ toString size ++ " bytes (limit " ++ toString limit ++ ")"

inductive Failure where
  | path (e : PathError)
  | extraction (e : ExtractionError)
  deriving DecidableEq, Repr

def Failure.message : Failure → String
  | .path e => e.message
  | .extraction e => e.message

inductive FileReport where
  | refused (r : Refusal)
  | read (place : Place) (contents : Contents)
  deriving DecidableEq, Repr

def sourceSuffixes : List String := [".ts", ".mts", ".cts"]

def decodeSource (bytes : List UInt8) : List Char := Text.foldEndings (Text.decodeUtf8 bytes)

namespace FileReport

def readable (fs : FileSystem) (place : Place) (limit : Int) : Except Refusal (List UInt8) :=
  match fs.file? place with
  | none => .error (.notFound place)
  | some bytes =>
    let name := place.getLast?.getD ""
    if suffix name ∉ sourceSuffixes then .error (.unsupported name)
    else if bytes.length > limit then .error (.tooLarge bytes.length limit)
    else .ok bytes

def ofPlace (fs : FileSystem) (place : Place) (limit : Int) : Except ExtractionError FileReport :=
  match readable fs place limit with
  | .error r => .ok (.refused r)
  | .ok bytes =>
    (extract (String.ofList (decodeSource bytes))).result.map (.read place)

def ofPath (w : Workspace) (path : String) (project : Option String) (limit : Int) :
    Except Failure FileReport :=
  match w.locateSource path project with
  | .error e => .error (.path e)
  | .ok place => (ofPlace w.files place limit).mapError .extraction

def toJson : FileReport → Json
  | .refused r => .object [("error", .string r.message)]
  | .read place contents => (Json.object [("file", .string place.text)]).append contents.summary

end FileReport

end SourceSpecs
