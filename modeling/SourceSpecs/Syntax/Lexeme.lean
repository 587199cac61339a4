import SourceSpecs.Syntax.Tree
/-!
The smallest pieces of a source text: names, numbers, strings and marks, and the blanks and
comments between them. Each piece is measured as the number of characters it takes up.
-/
namespace SourceSpecs.Syntax

/-- Blanks between tokens: the white space of Unicode, and three characters of no width. -/
def isSpace (c : Char) : Bool :=
  let n := c.toNat
  (9 ≤ n && n ≤ 13) || n == 32 || n == 0x85 || n == 0xA0 || n == 0x1680 ||
    (0x2000 ≤ n && n ≤ 0x200B) || n == 0x2028 || n == 0x2029 || n == 0x202F || n == 0x205F ||
    n == 0x2060 || n == 0x3000 || n == 0xFEFF

def isLineBreak (c : Char) : Bool :=
  c == '\n' || c == '\r' || c == '\u2028' || c == '\u2029'

def marks : List Char := ":;\x60\"'@#.,|^&<=>+-*/\\%?!~()[]\x7b\x7d".toList

/-- A character of a name: anything that is no mark, no control character and no space. -/
def isNamePart (c : Char) : Bool := 32 ≤ c.toNat && !isSpace c && !marks.contains c

def isNameStart (c : Char) : Bool := isNamePart c && !c.isDigit

def isHexDigit (c : Char) : Bool := c.isDigit || ('a' ≤ c && c ≤ 'f') || ('A' ≤ c && c ≤ 'F')

def escapeLength : List Char → Nat
  | '\\' :: 'u' :: '{' :: t =>
    let digits := (t.takeWhile isHexDigit).length
    if 0 < digits && t[digits]? == some '}' then digits + 4 else 0
  | '\\' :: 'u' :: t => if (t.take 4).length == 4 && (t.take 4).all isHexDigit then 6 else 0
  | _ => 0

/-- How far a name goes on, the first `known` characters being part of it. -/
def nameLength : Nat → List Char → Nat
  | _, [] => 0
  | known + 1, _ :: t => nameLength known t + 1
  | 0, c :: t =>
    if isNamePart c then nameLength 0 t + 1
    else match escapeLength (c :: t) with
      | 0 => 0
      | n + 1 => nameLength n t + 1

def nameLength? (t : List Char) : Option Nat :=
  match t with
  | [] => none
  | c :: _ => if isNameStart c || 0 < escapeLength t then some (nameLength 0 t) else none

/-- The length of a run of digits, in which single underscores may stand between two digits. -/
def digitsLength (p : Char → Bool) : List Char → Nat
  | [] => 0
  | [c] => if p c then 1 else 0
  | c :: '_' :: d :: t => if p c then if p d then digitsLength p (d :: t) + 2 else 1 else 0
  | c :: t => if p c then digitsLength p t + 1 else 0

def exponentLength : List Char → Nat
  | e :: t =>
    if e == 'e' || e == 'E' then
      let sign := match t with
        | '+' :: _ | '-' :: _ => 1
        | _ => 0
      match digitsLength Char.isDigit (t.drop sign) with
      | 0 => 0
      | n => n + sign + 1
    else 0
  | [] => 0

def takesFraction : List Char → Bool
  | '0' :: '0' :: _ => false
  | '0' :: '_' :: _ => false
  | _ => true

def radixLength (t : List Char) : Nat :=
  match t with
  | '0' :: r :: digits =>
    let length :=
      if r == 'x' || r == 'X' then digitsLength isHexDigit digits
      else if r == 'o' || r == 'O' then digitsLength (fun c => '0' ≤ c && c ≤ '7') digits
      else if r == 'b' || r == 'B' then digitsLength (fun c => c == '0' || c == '1') digits
      else 0
    if length == 0 then 0
    else if digits[length]? == some 'n' then length + 3 else length + 2
  | _ => 0

def decimalLength (t : List Char) : Nat :=
  let whole := digitsLength Char.isDigit t
  let rest := t.drop whole
  match whole, rest with
  | 0, '.' :: r =>
    match digitsLength Char.isDigit r with
    | 0 => 0
    | n => n + 1 + exponentLength (r.drop n)
  | 0, _ => 0
  | _, 'n' :: _ => whole + 1
  | _, '.' :: r =>
    if takesFraction (t.take whole) then
      let n := digitsLength Char.isDigit r
      whole + 1 + n + exponentLength (r.drop n)
    else whole
  | _, _ => if takesFraction (t.take whole) then whole + exponentLength rest else whole

def numberLength? (t : List Char) : Option Nat :=
  match max (radixLength t) (decimalLength t) with
  | 0 => none
  | n => some n

def escapedLength : List Char → Nat
  | [] => 0
  | 'x' :: t => if (t.take 2).length == 2 && (t.take 2).all isHexDigit then 3 else 0
  | 'u' :: t => escapeLength ('\\' :: 'u' :: t) - 1
  | c :: d :: _ =>
    if (c == '\r' || c == '?') && (d == '\n' || d == '\u2028' || d == '\u2029') then 2 else 1
  | [_] => 1

/-- The length of a string's rest up to its closing quote, the first `known` characters being
    part of it. A string does not go over the end of a line. -/
def stringRest? (quote : Char) : Nat → Nat → List Char → Option Nat
  | _, _, [] => none
  | length, known + 1, _ :: t => stringRest? quote (length + 1) known t
  | length, 0, c :: t =>
    if c == quote then some (length + 1)
    else if c == '\\' then
      match escapedLength t with
      | 0 => none
      | n => stringRest? quote (length + 1) n t
    else if c == '\n' || c == '\r' then none
    else stringRest? quote (length + 1) 0 t

def stringLength? : List Char → Option Nat
  | [] => none
  | c :: t => if c == '\'' || c == '"' then stringRest? c 1 0 t else none

/-- The length of a pattern's rest up to its closing slash. `inClass` holds between brackets. -/
def patternRest? : Nat → Bool → List Char → Option Nat
  | _, _, [] => none
  | length, inClass, '\\' :: c :: t =>
    if c == '\n' then none else patternRest? (length + 2) inClass t
  | length, inClass, c :: t =>
    if c == '\n' || c == '\\' then none
    else if c == '/' && !inClass then some (length + 1)
    else patternRest? (length + 1) (if inClass then c != ']' else c == '[') t

def isLowerCase (c : Char) : Bool := 'a' ≤ c && c ≤ 'z'

def regularExpressionLength? : List Char → Option Nat
  | '/' :: c :: t =>
    if c == '/' then none
    else (patternRest? 1 false (c :: t)).map fun n =>
      n + (((c :: t).drop (n - 1)).takeWhile isLowerCase).length
  | _ => none

def templateTextLength? (t : List Char) : Option Nat :=
  let rec go : Nat → List Char → Option Nat
    | _, [] => none
    | length, '$' :: '{' :: _ => if length == 0 then none else some length
    | length, c :: t =>
      if c == '\x60' || c == '\\' then if length == 0 then none else some length
      else go (length + 1) t
  go 0 t

inductive Gap where
  | blank
  | lineComment (start : Nat)
  | blockComment (start : Cursor)

/-- The comments in front of the next token, and the cursor at that token. -/
def gap : Gap → Nat → List Char → List Span × Cursor
  | .blank, o, '/' :: '/' :: t => gap (.lineComment o) (o + 2) t
  | .blank, o, '/' :: '*' :: t => gap (.blockComment ⟨o, '/' :: '*' :: t⟩) (o + 2) t
  | .blank, o, c :: t => if isSpace c then gap .blank (o + 1) t else ([], ⟨o, c :: t⟩)
  | .blank, o, [] => ([], ⟨o, []⟩)
  | .lineComment start, o, c :: t =>
    if isLineBreak c then
      let (comments, next) := gap .blank (o + 1) t
      (⟨start, o⟩ :: comments, next)
    else gap (.lineComment start) (o + 1) t
  | .lineComment start, o, [] => ([⟨start, o⟩], ⟨o, []⟩)
  | .blockComment start, o, '*' :: '/' :: t =>
    let (comments, next) := gap .blank (o + 2) t
    (⟨start.offset, o + 2⟩ :: comments, next)
  | .blockComment start, o, _ :: t => gap (.blockComment start) (o + 1) t
  | .blockComment start, _, [] => ([], start)

def skipGap (c : Cursor) : List Tree × Cursor :=
  let (comments, next) := gap .blank c.offset c.rest
  (comments.map (Tree.leaf .comment), next)

end SourceSpecs.Syntax
