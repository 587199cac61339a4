import SourceSpecs.Text.Blank
import SourceSpecs.Text.Pieces
/-!
Lines of a text, and the text without the indent that all its lines share. A line break is the
line feed alone; every other break is an ordinary blank.
-/
namespace SourceSpecs.Text

def lines (t : List Char) : List (List Char) := pieces '\n' t

def unlines (ls : List (List Char)) : List Char := joinPieces '\n' ls

def isBlankLine (line : List Char) : Bool := line.all isBlank

def indentOf (line : List Char) : Nat := (line.takeWhile isBlank).length

/-- The smallest indent of a line that is not blank. -/
def commonIndent? (ls : List (List Char)) : Option Nat :=
  ((ls.filter (!isBlankLine ·)).map indentOf).min?

/-- Cuts the common indent off every line. Blank lines do not count for the indent but are cut as
    well; where all lines are blank they all become empty. -/
def dedentLines (ls : List (List Char)) : List (List Char) :=
  match commonIndent? ls with
  | none => ls.map fun _ => []
  | some k => ls.map (List.drop k)

def dedent (t : List Char) : List Char := unlines (dedentLines (lines t))

theorem unlines_lines (t : List Char) : unlines (lines t) = t := joinPieces_pieces '\n' t

theorem length_dedentLines (ls : List (List Char)) : (dedentLines ls).length = ls.length := by
  unfold dedentLines
  split <;> simp

end SourceSpecs.Text
