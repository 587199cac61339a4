import SourceSpecs.Syntax.Ending
/-!
Forms: how a piece of source text may be written. A form is read from left to right; of two forms
in a choice the second is read only where the first does not fit. Reading yields the nodes in the
order of the text and the cursor behind them.
-/
namespace SourceSpecs.Syntax

/-- A symbol is a mark that none of its stops follows, a name any but the excepted words. -/
inductive Token where
  | word (kind : Kind) (word : List Char)
  | symbol (mark : List Char) (stops : List Char)
  | name (kind : Kind) (except : List (List Char))
  | privateName
  | number
  | string
  | regularExpression
  | templateText
  | escape
  | condition
  | interpreter
  deriving DecidableEq, Repr

/-- Whether a conditional expression's question mark can be followed by this. -/
def goesOnAfterCondition (t : List Char) : Bool :=
  match t with
  | '?' :: _ | '.' :: _ => false
  | _ =>
    match t.dropWhile isSpace with
    | ':' :: _ | ')' :: _ | ',' :: _ => false
    | '.' :: c :: _ => c.isDigit
    | ['.'] => false
    | _ => true

namespace Token

def kind : Token → Kind
  | word k _ => k
  | symbol m _ => .symbol m
  | name k _ => k
  | privateName => .privateName
  | number => .number
  | string => .string
  | regularExpression => .regularExpression
  | templateText => .templateText
  | escape => .escape
  | condition => .symbol ['?']
  | interpreter => .comment

def length? : Token → List Char → Option Nat
  | word _ w, t =>
    match after? w t with
    | none => none
    | some _ => if nameLength? t == some w.length then some w.length else none
  | symbol m stops, t =>
    match after? m t with
    | none => none
    | some rest =>
      match rest with
      | c :: _ => if stops.contains c then none else some m.length
      | [] => some m.length
  | name _ except, t =>
    match nameLength? t with
    | none => none
    | some n => if except.contains (t.take n) then none else some n
  | privateName, '#' :: t => (nameLength? t).map (· + 1)
  | privateName, _ => none
  | number, t => numberLength? t
  | string, t => stringLength? t
  | regularExpression, t => regularExpressionLength? t
  | templateText, t => templateTextLength? t
  | escape, '\\' :: t =>
    match escapedLength t with
    | 0 => none
    | n + 1 => some (n + 2)
  | escape, _ => none
  | condition, '?' :: t => if goesOnAfterCondition t then some 1 else none
  | condition, _ => none
  | interpreter, '#' :: '!' :: t => some ((t.takeWhile (· != '\n')).length + 2)
  | interpreter, _ => none

theorem length?_number (t : List Char) : number.length? t = numberLength? t := by rw [length?]

theorem length?_string (t : List Char) : string.length? t = stringLength? t := by rw [length?]

def read (k : Token) (c : Cursor) : Option (Tree × Cursor) :=
  (k.length? c.rest).map fun n =>
    (Tree.leaf k.kind ⟨c.offset, c.offset + n⟩, ⟨c.offset + n, c.rest.drop n⟩)

end Token

/-- A `token` may have blanks and comments in front, a `glued` one has none. `absent` reads nothing,
    where the form does not fit; `onward` reads the form, where what came before it cannot end here,
    and `ended` reads nothing, where it can. `field` gives the last node read a part to play. -/
inductive Form (ρ : Type) where
  | nothing
  | token (k : Token)
  | glued (k : Token)
  | seq (f g : Form ρ)
  | alt (f g : Form ρ)
  | many (f : Form ρ)
  | absent (f : Form ρ)
  | rule (r : ρ)
  | node (k : Kind) (f : Form ρ)
  | field (x : Field) (f : Form ρ)
  | within (e : Ending) (f : Form ρ)
  | onward (f : Form ρ)
  | ended (e : Ending)
  | finish

/-- What reading comes to. `tooDeep` is no answer: the reading needs more depth. -/
inductive Outcome where
  | fits (nodes : List Tree) (next : Cursor)
  | misfit
  | tooDeep

/-- Reads again and again, until the reading does not fit or reads nothing more. Nodes already read
    come last first. -/
def repeatUpTo : Nat → (Cursor → Outcome) → List Tree → Cursor → Outcome
  | 0, _, _, _ => .tooDeep
  | n + 1, step, read, c =>
    match step c with
    | .fits nodes d =>
      if d.offset == c.offset then .fits read.reverse c
      else repeatUpTo n step (nodes.reverse ++ read) d
    | .misfit => .fits read.reverse c
    | .tooDeep => .tooDeep

def markLast (x : Field) : List Tree → List Tree
  | [] => []
  | [t] => [t.as x]
  | t :: ts => t :: markLast x ts

namespace Form

/-- Reads a form, given how to read the rules it names. `limit` bounds the rounds of a repetition. -/
def read {ρ : Type} (limit : Nat) (call : ρ → Ending → Cursor → Outcome) :
    Form ρ → Ending → Cursor → Outcome
  | nothing, _, c => .fits [] c
  | token k, _, c =>
    let (comments, c) := skipGap c
    match k.read c with
    | some (t, d) => .fits (comments ++ [t]) d
    | none => .misfit
  | glued k, _, c =>
    match k.read c with
    | some (t, d) => .fits [t] d
    | none => .misfit
  | seq f g, e, c =>
    match f.read limit call e c with
    | .fits nodes d =>
      match g.read limit call e d with
      | .fits more d => .fits (nodes ++ more) d
      | o => o
    | o => o
  | alt f g, e, c =>
    match f.read limit call e c with
    | .misfit => g.read limit call e c
    | o => o
  | many f, e, c => repeatUpTo limit (f.read limit call e) [] c
  | absent f, e, c =>
    match f.read limit call e c with
    | .fits _ _ => .misfit
    | .misfit => .fits [] c
    | .tooDeep => .tooDeep
  | rule r, e, c => call r e c
  | node k f, e, c =>
    let (comments, c) := skipGap c
    match f.read limit call e c with
    | .fits nodes d => .fits (comments ++ [.node k none ⟨c.offset, d.offset⟩ nodes]) d
    | o => o
  | field x f, e, c =>
    match f.read limit call e c with
    | .fits nodes d => .fits (markLast x nodes) d
    | o => o
  | within e f, _, c => f.read limit call e c
  | onward f, e, c => if e.endsAt c then .misfit else f.read limit call e c
  | ended e, _, c => if e.endsAt c then .fits [] c else .misfit
  | finish, _, c =>
    let (comments, c) := skipGap c
    match c.rest with
    | [] => .fits comments c
    | _ => .misfit

instance {ρ : Type} : Append (Form ρ) := ⟨seq⟩

instance {ρ : Type} : OrElse (Form ρ) := ⟨fun f g => alt f (g ())⟩

variable {ρ : Type}

def opt (f : Form ρ) : Form ρ := alt f nothing

def some (f : Form ρ) : Form ρ := seq f (many f)

def present (f : Form ρ) : Form ρ := absent (absent f)

def separated (f mark : Form ρ) : Form ρ := seq f (many (seq mark f))

def choice : List (Form ρ) → Form ρ
  | [] => absent nothing
  | [f] => f
  | f :: fs => alt f (choice fs)

theorem read_rule (limit : Nat) (call : ρ → Ending → Cursor → Outcome) (r : ρ) (e : Ending)
    (c : Cursor) : (rule r).read limit call e c = call r e c := by
  rw [read]

end Form

def readRule {ρ : Type} (rules : ρ → Form ρ) (limit : Nat) : Nat → ρ → Ending → Cursor → Outcome
  | 0, _, _, _ => .tooDeep
  | depth + 1, r, e, c => (rules r).read limit (readRule rules limit depth) e c

end SourceSpecs.Syntax
