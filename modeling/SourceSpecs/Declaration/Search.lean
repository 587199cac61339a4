import SourceSpecs.Declaration.Form
/-!
Searching a text for forms. A pattern is a list of alternatives, tried in order at each position
from left to right; an alternative is a row of forms that follow one another. Matches do not
overlap. After an empty match the next one may start at the same place, but is not empty.
-/
namespace SourceSpecs.Declaration

/-- Where a pattern is not `multiline`, no form starts but at the beginning of the text. -/
structure Pattern where
  alternatives : List (List Form)
  multiline : Bool

def Form.opensAlternative (f : Form) : Bool := f != .function

def joinForm (alternatives : List (List Form)) (f : Form) : List (List Form) :=
  if f.opensAlternative then alternatives ++ [[f]]
  else match alternatives.getLast? with
    | none => [[f]]
    | some row => alternatives.dropLast ++ [row ++ [f]]

/-- The pattern of the given forms. No form may be given twice. The first alternative is empty
    unless the header comes first. -/
def Pattern.ofForms? (forms : List Form) (multiline : Bool) : Option Pattern :=
  if forms.Nodup then some ⟨forms.foldl joinForm [[]], multiline⟩ else none

def Form.all : List Form := [.function, .interface, .typeAlias, .importFrom, .require]

def Pattern.declarations : Pattern := ⟨Form.all.map ([·]), true⟩

structure Match where
  start : Nat
  text : List Char
  captures : List Capture
  deriving DecidableEq, Repr

def Match.stop (m : Match) : Nat := m.start + m.text.length

def endsLine (c d : Cursor) : Bool := c.rest[d.offset - c.offset - 1]? == some '\n'

/-- Reads the forms one after another. `here` tells whether a form may start at the cursor. -/
def readRow (multiline : Bool) : List Form → Bool → List Capture → (List Capture → Cursor → Option α) →
    Cursor → Option α
  | [], _, captures, k, c => k captures c
  | f :: row, here, captures, k, c =>
    if here then
      f.read (fun capture d =>
        readRow multiline row (multiline && endsLine c d) (captures ++ [capture]) k d) c
    else none

def Pattern.matchAt (p : Pattern) (here nonempty : Bool) (c : Cursor) : Option Match :=
  p.alternatives.findSome? fun row =>
    readRow p.multiline row here [] (fun captures d =>
      if nonempty && c.offset == d.offset then none
      else some ⟨c.offset, c.rest.take (d.offset - c.offset), captures⟩) c

def Pattern.startsHere (p : Pattern) (lineStart : Bool) (c : Cursor) : Bool :=
  if p.multiline then lineStart else c.offset == 0

def Pattern.allFrom (p : Pattern) (found : List Match) (lineStart afterEmpty : Bool) (c : Cursor) :
    List Match :=
  match p.matchAt (p.startsHere lineStart c) afterEmpty c with
  | some m =>
    if _ : m.text = [] then
      if _ : afterEmpty = true then found.reverse else p.allFrom (m :: found) lineStart true c
    else if _ : c.rest = [] then (m :: found).reverse
    else p.allFrom (m :: found) (m.text.getLast? == some '\n') false (c.drop m.text.length)
  | none =>
    match e : c.rest with
    | [] => found.reverse
    | x :: rest => p.allFrom found (x == '\n') false ⟨c.offset + 1, rest⟩
termination_by (c.rest.length, if afterEmpty then 0 else 1)
decreasing_by
  · have : afterEmpty = false := by simpa using ‹¬afterEmpty = true›
    rw [this]
    exact Prod.Lex.right _ (by simp)
  · refine Prod.Lex.left _ _ ?_
    have := List.length_pos_iff.2 ‹¬m.text = []›
    have := List.length_pos_iff.2 ‹¬c.rest = []›
    simp only [Cursor.drop, List.length_drop]
    omega
  · exact Prod.Lex.left _ _ (by simp [e])

def Pattern.all (p : Pattern) (t : List Char) : List Match :=
  p.allFrom [] true false (Cursor.ofText t)

end SourceSpecs.Declaration
