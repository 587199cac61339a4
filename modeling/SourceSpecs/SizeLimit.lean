import SourceSpecs.Environment
import SourceSpecs.Text.Blank
import SourceSpecs.Text.Digit
import SourceSpecs.Text.Pieces
/-!
The largest size of a file that is read, as a number of bytes. It can be given by a numeral: decimal
digits of any script, single underscores between them, a sign in front, and blanks around.
-/
namespace SourceSpecs.SizeLimit

open Text

def standard : Int := 512000

/-- The most digits a numeral may have, leading zeros included. -/
def maxDigits : Nat := 4300

/-- The information separators are blank but not around a numeral. -/
def isPadding (c : Char) : Bool := isBlank c && !(28 ≤ c.toNat && c.toNat ≤ 31)

def strip (t : List Char) : List Char :=
  ((t.dropWhile isPadding).reverse.dropWhile isPadding).reverse

def group? (t : List Char) : Option (List Nat) := if t = [] then none else t.mapM digit?

def digits? (t : List Char) : Option (List Nat) := ((pieces '_' t).mapM group?).map List.flatten

def natOfDigits (ds : List Nat) : Nat := ds.foldl (fun n d => 10 * n + d) 0

def magnitude? (t : List Char) : Option Nat :=
  (digits? t).bind fun ds => if ds.length ≤ maxDigits then some (natOfDigits ds) else none

def signed? : List Char → Option Int
  | '+' :: t => (magnitude? t).map Int.ofNat
  | '-' :: t => (magnitude? t).map fun n => -Int.ofNat n
  | t => (magnitude? t).map Int.ofNat

def ofText? (t : String) : Option Int := signed? (strip t.toList)

def variableName : String := "IPCSPEC_MAX_FILE_SIZE"

/-- What is no numeral is passed over. -/
def ofEnvironment (e : Environment) : Int := ((e.value? variableName).bind ofText?).getD standard

end SourceSpecs.SizeLimit
