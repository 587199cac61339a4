import SourceSpecs.Json.Basic
/-!
JSON text: one member or item a line, two blanks of indent a level, and ASCII characters only.
-/
namespace SourceSpecs.Json

def hexDigit (n : Nat) : Char := (Nat.digitChar (n % 16))

def hex4 (n : Nat) : List Char :=
  [hexDigit (n / 4096), hexDigit (n / 256), hexDigit (n / 16), hexDigit n]

def units16 (c : Char) : List Nat :=
  let n := c.toNat
  if n < 0x10000 then [n]
  else [0xD800 + (n - 0x10000) / 0x400, 0xDC00 + (n - 0x10000) % 0x400]

/-- A character inside a string: by a short escape where there is one, by its UTF-16 units where it
    is a control character or not ASCII, and otherwise as it is. -/
def escape (c : Char) : List Char :=
  if c = '"' then ['\\', '"']
  else if c = '\\' then ['\\', '\\']
  else if c = '\n' then ['\\', 'n']
  else if c = '\r' then ['\\', 'r']
  else if c = '\t' then ['\\', 't']
  else if c.toNat = 8 then ['\\', 'b']
  else if c.toNat = 12 then ['\\', 'f']
  else if 32 ≤ c.toNat ∧ c.toNat < 127 then [c]
  else (units16 c).flatMap fun u => '\\' :: 'u' :: hex4 u

def quote (s : List Char) : List Char := '"' :: s.flatMap escape ++ ['"']

def newLine (depth : Nat) : List Char := '\n' :: List.replicate (2 * depth) ' '

mutual

def print (depth : Nat) : Json → List Char
  | null => "null".toList
  | bool b => if b then "true".toList else "false".toList
  | number n => (toString n).toList
  | string s => quote s.toList
  | array [] => ['[', ']']
  | array (j :: js) =>
    '[' :: newLine (depth + 1) ++ print (depth + 1) j ++ printItems depth js ++ newLine depth ++ [']']
  | object [] => ['{', '}']
  | object ((k, j) :: ms) =>
    '{' :: newLine (depth + 1) ++ quote k.toList ++ [':', ' '] ++ print (depth + 1) j ++
      printMembers depth ms ++ newLine depth ++ ['}']

def printItems (depth : Nat) : List Json → List Char
  | [] => []
  | j :: js => ',' :: newLine (depth + 1) ++ print (depth + 1) j ++ printItems depth js

def printMembers (depth : Nat) : List (String × Json) → List Char
  | [] => []
  | (k, j) :: ms =>
    ',' :: newLine (depth + 1) ++ quote k.toList ++ [':', ' '] ++ print (depth + 1) j ++
      printMembers depth ms

end

def render (j : Json) : String := String.ofList (print 0 j)

end SourceSpecs.Json
