import SourceSpecs.Syntax.Grammar.Statements
/-!
The grammar, and the tree of a source text. A text that does not fit the grammar has no tree: it is
not repaired, and an HTML comment (`<!-- ...`) is no comment here.
-/
namespace SourceSpecs.Syntax

open Grammar in
def Rule.form : Rule → Form Rule
  | .program => Grammar.program
  | .statement => Grammar.statement
  | .block => Grammar.block
  | .declaration => Grammar.declaration
  | .type => Grammar.type
  | .typeOperand => Grammar.typeOperand
  | .typeArguments => Grammar.typeArguments
  | .typeParameters => Grammar.typeParameters
  | .objectType => Grammar.objectType
  | .typing => Grammar.typing
  | .returnTyping => Grammar.returnTyping
  | .callSignature => Grammar.callSignature
  | .parameters => Grammar.parameters
  | .expression plain => Grammar.expressionOf plain
  | .operand plain => Grammar.operand plain
  | .primary => Grammar.primary
  | .access => Grammar.access
  | .arguments => Grammar.arguments
  | .parenthesized => Grammar.parenthesized
  | .template => Grammar.template
  | .pattern => Grammar.pattern
  | .objectPattern => Grammar.objectPattern
  | .arrayPattern => Grammar.arrayPattern
  | .classBody => Grammar.classBody
  | .decorator => Grammar.decorator

def ruleCount : Nat := 27

/-- No rule reads itself again before it has read a character, so a text is read within this many
    rules at once. -/
def depthFor (t : List Char) : Nat := (t.length + 1) * (ruleCount + 1)

def parse? (t : List Char) : Option Tree :=
  match readRule Rule.form (t.length + 1) (depthFor t) .program .never (Cursor.ofText t) with
  | .fits nodes next => some (.node .program none ⟨0, next.offset⟩ nodes)
  | _ => none

end SourceSpecs.Syntax
