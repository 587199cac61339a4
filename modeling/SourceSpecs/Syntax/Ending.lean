import SourceSpecs.Syntax.Lexeme
import SourceSpecs.Text.Word
/-!
Where a statement may end without a semicolon: at the end of the text, before a closing brace, and
at a line break whose next line cannot go on with the statement.
-/
namespace SourceSpecs.Syntax

/-- What has just been read, as far as it tells how the next line may go on: an expression with a
    call or an index, a signature with its body. Behind a declaration a bracket starts anew. -/
inductive Ending where
  | never
  | expression
  | declaration
  | signature
  deriving DecidableEq, Repr

def isLetter (c : Char) : Bool := c.isAlpha || (128 ≤ c.toNat && Text.isWord c)

def startsWithLetter : List Char → Bool
  | [] => false
  | c :: _ => isLetter c

def startsWithRelation (t : List Char) : Bool :=
  match after? "in".toList t with
  | none => false
  | some t =>
    !startsWithLetter t ||
      match after? "stanceof".toList t with
      | none => false
      | some t => !startsWithLetter t

def continuingMarks : List Char := "\x60,.;*%><=?^|&/:".toList

/-- Whether a new line that starts so starts something new. -/
def startsAnew (e : Ending) : List Char → Bool
  | [] => true
  | '{' :: _ => e != .signature
  | '(' :: _ | '[' :: _ => e != .expression
  | '+' :: t => t.head? == some '+'
  | '-' :: t => t.head? == some '-'
  | '!' :: t => t.head? != some '='
  | c :: t => !continuingMarks.contains c && !startsWithRelation (c :: t)

/-- Whether a closing brace ends the statement. One that a colon follows closes a pattern with a
    type, unless it stands in a conditional expression. -/
def endsAtBrace (e : Ending) (t : List Char) : Bool :=
  match t.dropWhile isSpace with
  | ':' :: _ => e == .expression
  | _ => true

/-- Whether the statement may end here without a semicolon. -/
def mayEnd (e : Ending) : Gap → List Char → Bool
  | .blank, [] => true
  | .blank, '/' :: '/' :: t => mayEnd e (.lineComment 0) t
  | .blank, '/' :: '*' :: t => mayEnd e (.blockComment ⟨0, []⟩) t
  | .blank, '}' :: t => endsAtBrace e t
  | .blank, '\n' :: t => startsAnew e (gap .blank 0 t).2.rest
  | .blank, c :: t => isSpace c && mayEnd e .blank t
  | .lineComment _, [] => true
  | .lineComment _, '\n' :: t => startsAnew e (gap .blank 0 t).2.rest
  | .lineComment o, c :: t => mayEnd e (if isLineBreak c then .blank else .lineComment o) t
  | .blockComment _, '*' :: '/' :: t => mayEnd e .blank t
  | .blockComment c, _ :: t => mayEnd e (.blockComment c) t
  | .blockComment _, [] => false

def Ending.endsAt (e : Ending) (c : Cursor) : Bool :=
  e != .never && mayEnd e .blank c.rest

end SourceSpecs.Syntax
