import SourceSpecs.Json.Basic
import SourceSpecs.Json.Printer
/-!
Reading of JSON texts as RFC 8259 has them. A string is read as UTF-16 units first, then as the
characters that these are; a half of a pair alone is none. Numbers are natural numbers.
-/
namespace SourceSpecs.Json

def isSpace (c : Char) : Bool := c == ' ' || c == '\t' || c == '\n' || c == '\r'

def skip (t : List Char) : List Char := t.dropWhile isSpace

def hexValue? (c : Char) : Option Nat :=
  if '0' ≤ c ∧ c ≤ '9' then some (c.toNat - '0'.toNat)
  else if 'a' ≤ c ∧ c ≤ 'f' then some (c.toNat - 'a'.toNat + 10)
  else if 'A' ≤ c ∧ c ≤ 'F' then some (c.toNat - 'A'.toNat + 10)
  else none

def shortEscape? (c : Char) : Option Char :=
  match c with
  | '"' | '\\' | '/' => some c
  | 'b' => some '\x08'
  | 'f' => some '\x0c'
  | 'n' => some '\n'
  | 'r' => some '\r'
  | 't' => some '\t'
  | _ => none

/-- How far a reading has come inside a string: between characters, behind a backslash, or with so
    many hexadecimal digits to come and the value of those before. -/
inductive Inside where
  | plain
  | escape
  | hex (need value : Nat)

def push (units : List Nat) (later : Option (List Nat × List Char)) : Option (List Nat × List Char) :=
  later.map fun (us, t) => (units ++ us, t)

def readUnits (inside : Inside) : List Char → Option (List Nat × List Char)
  | [] => none
  | c :: t =>
    match inside with
    | .plain =>
      if c = '"' then some ([], t)
      else if c = '\\' then readUnits .escape t
      else if c.toNat < 0x20 then none
      else push (units16 c) (readUnits .plain t)
    | .escape =>
      if c = 'u' then readUnits (.hex 4 0) t
      else (shortEscape? c).bind fun c => push (units16 c) (readUnits .plain t)
    | .hex need value => (hexValue? c).bind fun digit =>
      if need ≤ 1 then push [value * 16 + digit] (readUnits .plain t)
      else readUnits (.hex (need - 1) (value * 16 + digit)) t

def isHighHalf (u : Nat) : Bool := 0xD800 ≤ u && u < 0xDC00

def isLowHalf (u : Nat) : Bool := 0xDC00 ≤ u && u < 0xE000

def ofUnits16? : List Nat → Option (List Char)
  | [] => some []
  | u :: us =>
    if isHighHalf u then
      match us with
      | v :: us =>
        if isLowHalf v then
          (ofUnits16? us).map (Char.ofNat (0x10000 + (u - 0xD800) * 0x400 + (v - 0xDC00)) :: ·)
        else none
      | [] => none
    else if isLowHalf u then none
    else (ofUnits16? us).map (Char.ofNat u :: ·)

def readString (t : List Char) : Option (String × List Char) :=
  (readUnits .plain t).bind fun (us, t) => (ofUnits16? us).map fun s => (String.ofList s, t)

def readNumber (t : List Char) : Option (Nat × List Char) :=
  let digits := t.takeWhile Char.isDigit
  if digits = [] ∨ (digits.head? = some '0' ∧ digits ≠ ['0']) then none
  else some (Nat.ofDigitChars 10 digits 0, t.dropWhile Char.isDigit)

def readWord (w : String) (j : Json) (t : List Char) : Option (Json × List Char) :=
  if w.toList <+: t then some (j, t.drop w.length) else none

mutual

/-- A value at the front of a text, and the text behind it. Each step takes at least one character,
    so it is enough to have more fuel than there are characters. -/
def readValue (fuel : Nat) (t : List Char) : Option (Json × List Char) :=
  match fuel, t with
  | 0, _ | _, [] => none
  | fuel + 1, c :: t =>
    if c = '"' then (readString t).map fun (s, t) => (string s, t)
    else if c = '[' then
      match skip t with
      | ']' :: t => some (array [], t)
      | t => (readValue fuel t).bind fun (j, t) =>
        (readItems fuel t).map fun (js, t) => (array (j :: js), t)
    else if c = '{' then
      match skip t with
      | '}' :: t => some (object [], t)
      | t => (readMember fuel t).bind fun (m, t) =>
        (readMembers fuel t).map fun (ms, t) => (object (m :: ms), t)
    else if c = 'n' then readWord "null" null (c :: t)
    else if c = 't' then readWord "true" (bool true) (c :: t)
    else if c = 'f' then readWord "false" (bool false) (c :: t)
    else (readNumber (c :: t)).map fun (n, t) => (number n, t)

def readItems (fuel : Nat) (t : List Char) : Option (List Json × List Char) :=
  match fuel, skip t with
  | fuel + 1, ',' :: t => (readValue fuel (skip t)).bind fun (j, t) =>
    (readItems fuel t).map fun (js, t) => (j :: js, t)
  | _ + 1, ']' :: t => some ([], t)
  | _, _ => none

def readMember (fuel : Nat) (t : List Char) : Option ((String × Json) × List Char) :=
  match fuel, t with
  | fuel + 1, '"' :: t => (readString t).bind fun (k, t) =>
    match skip t with
    | ':' :: t => (readValue fuel (skip t)).map fun (j, t) => ((k, j), t)
    | _ => none
  | _, _ => none

def readMembers (fuel : Nat) (t : List Char) : Option (List (String × Json) × List Char) :=
  match fuel, skip t with
  | fuel + 1, ',' :: t => (readMember fuel (skip t)).bind fun (m, t) =>
    (readMembers fuel t).map fun (ms, t) => (m :: ms, t)
  | _ + 1, '}' :: t => some ([], t)
  | _, _ => none

end

def ofText? (text : String) : Option Json :=
  (readValue (text.length + 1) (skip text.toList)).bind fun (j, t) =>
    if skip t = [] then some j else none

end SourceSpecs.Json
