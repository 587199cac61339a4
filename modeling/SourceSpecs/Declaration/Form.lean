import SourceSpecs.Text.Blank
import SourceSpecs.Text.Cursor
import SourceSpecs.Text.Word
/-!
The written forms of a declaration. A form begins at the start of a line and ends with a line
break. Where a form can be read in several ways, the ways are tried in a fixed order and the first
that lets the rest of the reading succeed is taken.
-/
namespace SourceSpecs.Declaration

open Text

/-- A header goes up to the brace that ends its line, an interface up to the first line that is a
    closing brace, and any other form up to the first line that can end it. -/
inductive Form where
  | function
  | interface
  | typeAlias
  | importFrom
  | require
  deriving DecidableEq, Repr

inductive Capture where
  | function (whole : Span)
  | interface (whole : Span) (exported : Option Span) (name : Span)
  | typeAlias (whole : Span) (exported : Option Span) (name : Span)
  | importFrom (whole : Span) (path : Span)
  | require (whole : Span) (path : Span)
  deriving DecidableEq, Repr

def Capture.whole : Capture → Span
  | .function w | .interface w _ _ | .typeAlias w _ _ | .importFrom w _ | .require w _ => w

def isQuote (c : Char) : Bool := c == '\'' || c == '"'

def isInLine (c : Char) : Bool := c != '\n'

def isInReturnType (c : Char) : Bool := c != '<' && c != '\n'

@[inline] def word (w : String) (c : Cursor) : Option Cursor := c.past? w.toList

abbrev Next (α : Type) := Capture → Cursor → Option α

def namedAfter (w : String) (c : Cursor) : Option (Span × Cursor) := do
  let c ← word w c
  let start ← c.skipSome? isBlank
  let stop ← start.skipSome? isWord
  pure (⟨start.offset, stop.offset⟩, stop)

def exportMark (c : Cursor) : Option Span × Cursor :=
  match (word "export" c).bind (Cursor.skipSome? isBlank) with
  | some d => (some ⟨c.offset, d.offset⟩, d)
  | none => (none, c)

def openingBrace (c : Cursor) : Option Cursor :=
  (c.skipSome? isBlank).bind (word "\x7b\n")

/-- The longest return type that the opening brace can follow. It starts as late as it can and
    holds neither `<` nor a line break. -/
def returnType (c : Cursor) : Option Cursor :=
  c.lastAlong isBlank fun start =>
    (start.next? isInReturnType).bind fun (_, c) => c.lastAlong isInReturnType openingBrace

def readFunction (k : Next α) (c : Cursor) : Option α := do
  let start := c.offset
  let c ← word "export" c
  let c ← c.skipSome? isBlank
  let (_, c) ← namedAfter "function" c
  let c ← word "(" (c.skip isBlank)
  let c ← word ")" (c.skip (· != ')'))
  let c ← match word ":" (c.skip isBlank) with
    | some c => returnType c
    | none => openingBrace c
  k (.function ⟨start, c.offset⟩) c

def readInterface (k : Next α) (c : Cursor) : Option α := do
  let start := c.offset
  let (exported, c) := exportMark c
  let (name, c) ← namedAfter "interface" c
  let c ← word "\x7b" (c.skip isBlank)
  c.firstAlong (fun _ => true) fun c => do
    let c ← word "\n\x7d\n" c
    k (.interface ⟨start, c.offset⟩ exported name) c

def readTypeAlias (k : Next α) (c : Cursor) : Option α := do
  let start := c.offset
  let (exported, c) := exportMark c
  let (name, c) ← namedAfter "type" c
  let c ← word "=" (c.skip isBlank)
  c.firstAlong (fun _ => true) fun c => do
    let c ← word ";\n" c
    k (.typeAlias ⟨start, c.offset⟩ exported name) c

def lineEnd (c : Cursor) : Option Cursor := word "\n" ((word ";" c).getD c)

def readImport (k : Next α) (c : Cursor) : Option α := do
  let start := c.offset
  let c ← word "import" c
  let c ← c.skipSome? isBlank
  c.firstAlong (fun _ => true) fun c => do
    let c ← word "from" c
    let (_, path) ← (c.skip isBlank).next? isQuote
    path.firstAlong isInLine fun stop => do
      let (_, c) ← stop.next? isQuote
      let c ← lineEnd c
      k (.importFrom ⟨start, c.offset⟩ ⟨path.offset, stop.offset⟩) c

def readRequire (k : Next α) (c : Cursor) : Option α := do
  let start := c.offset
  let c ← word "const" c
  c.firstAlong (fun _ => true) fun c => do
    let c ← word "require(" c
    let (_, path) ← (c.skip isBlank).next? isQuote
    path.firstAlong isInLine fun stop => do
      let (_, c) ← stop.next? isQuote
      let c ← word ")" (c.skip isBlank)
      let c ← lineEnd c
      k (.require ⟨start, c.offset⟩ ⟨path.offset, stop.offset⟩) c

/-- Reads a form, then goes on with `k`. -/
def Form.read : Form → Next α → Cursor → Option α
  | .function => readFunction
  | .interface => readInterface
  | .typeAlias => readTypeAlias
  | .importFrom => readImport
  | .require => readRequire

end SourceSpecs.Declaration
