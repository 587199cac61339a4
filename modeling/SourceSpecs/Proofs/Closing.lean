import SourceSpecs.Syntax.Ending
/-!
What stands open in a source text: brackets, strings, comments and templates. Among the code a slash
may divide or open a pattern, and the text is read on both ways. A text is sealed if no way of
reading it leaves anything open at its end, which is a closing brace with a line break behind it.
-/
namespace SourceSpecs.Syntax

inductive Opening where
  | parenthesis | bracket | brace
  | hole
  deriving DecidableEq, Repr

def Opening.closer : Opening → Char
  | parenthesis => ')'
  | bracket => ']'
  | brace | hole => '\x7d'

def openedBy (c : Char) : Option Opening :=
  if c = '(' then some .parenthesis
  else if c = '[' then some .bracket
  else if c = '\x7b' then some .brace
  else none

def isCloser (c : Char) : Bool := c == ')' || c == ']' || c == '\x7d'

/-- The last three stand before the asterisk of a comment's opening, behind an asterisk in a comment,
    and before the brace of a hole in a template. -/
inductive Mode where
  | code | template
  | quoted (quote : Char)
  | lineComment | blockComment
  | opening
  | star
  | dollar
  deriving DecidableEq, Repr

/-- Where a reading stands. The next `known` characters are taken together, and the brackets in
    `opened` are open, the innermost first. -/
structure Stage where
  mode : Mode
  known : Nat
  opened : List Opening
  deriving DecidableEq, Repr

namespace Stage

def afterCloser (c : Char) : List Opening → List Stage
  | [] => []
  | b :: opened =>
    if b.closer = c then [⟨if b = .hole then .template else .code, 0, opened⟩] else []

def afterSlash (opened : List Opening) (t : List Char) : List Stage :=
  if t.head? = some '/' then [⟨.lineComment, 0, opened⟩]
  else if t.head? = some '*' then [⟨.opening, 0, opened⟩]
  else
    ⟨.code, 0, opened⟩ ::
      (regularExpressionLength? ('/' :: t)).toList.map fun n => ⟨.code, n - 1, opened⟩

def afterEscape (m : Mode) (taken : Nat) (opened : List Opening) : List Stage :=
  if taken = 0 then [] else [⟨m, taken, opened⟩]

def afterCode (opened : List Opening) (c : Char) (t : List Char) : List Stage :=
  if c = '/' then afterSlash opened t
  else if c = '\\' then afterEscape .code (escapeLength (c :: t) - 1) opened
  else if c = '\x60' then [⟨.template, 0, opened⟩]
  else if c = '\'' ∨ c = '"' then [⟨.quoted c, 0, opened⟩]
  else if isCloser c then afterCloser c opened
  else [⟨.code, 0, (openedBy c).toList ++ opened⟩]

def next (s : Stage) (c : Char) (t : List Char) : List Stage :=
  if s.known ≠ 0 then [⟨s.mode, s.known - 1, s.opened⟩]
  else match s.mode with
    | .code => afterCode s.opened c t
    | .quoted q =>
      if c = q then [⟨.code, 0, s.opened⟩]
      else if c = '\\' then afterEscape (.quoted q) (escapedLength t) s.opened
      else if c = '\n' ∨ c = '\r' then []
      else [⟨.quoted q, 0, s.opened⟩]
    | .template =>
      if c = '\x60' then [⟨.code, 0, s.opened⟩]
      else if c = '\\' then afterEscape .template (escapedLength t) s.opened
      else if c = '$' ∧ t.head? = some '\x7b' then [⟨.dollar, 0, s.opened⟩]
      else [⟨.template, 0, s.opened⟩]
    | .dollar => [⟨.code, 0, .hole :: s.opened⟩]
    | .lineComment => [⟨if isLineBreak c then .code else .lineComment, 0, s.opened⟩]
    | .opening => [⟨.blockComment, 0, s.opened⟩]
    | .blockComment => [⟨if c = '*' then .star else .blockComment, 0, s.opened⟩]
    | .star =>
      [⟨if c = '/' then .code else if c = '*' then .star else .blockComment, 0, s.opened⟩]

end Stage

def closes : Stage → List Char → Bool
  | _, [] => false
  | s, c :: t =>
    (s == ⟨.code, 0, [.brace]⟩ && c == '\x7d' && t == ['\n']) ||
      (s.next c t).all fun s' => closes s' t

/-- No way of reading the text leaves anything open at its end. -/
def Sealed (t : List Char) : Prop := closes ⟨.code, 0, []⟩ t = true

instance : DecidablePred Sealed := fun t => inferInstanceAs (Decidable (closes ⟨.code, 0, []⟩ t = true))

structure Held (s : Stage) (t : List Char) : Prop where
  closes : closes s t = true
  ends : t.getLast? = some '\n'

theorem Held.cons {s : Stage} {c : Char} {t : List Char} (h : Held s (c :: t)) :
    (s = ⟨.code, 0, [.brace]⟩ ∧ c = '\x7d' ∧ t = ['\n']) ∨ ∀ x ∈ s.next c t, Held x t := by
  have closed := h.closes
  rw [Syntax.closes] at closed
  rcases Bool.or_eq_true _ _ ▸ closed with last | further
  · simp only [Bool.and_eq_true, beq_iff_eq] at last
    exact Or.inl ⟨last.1.1, last.1.2, last.2⟩
  · right
    intro x member
    have inside := List.all_eq_true.1 further x member
    cases t with
    | nil => cases inside
    | cons d t => exact ⟨inside, by simpa using h.ends⟩

theorem Held.next {s x : Stage} {c : Char} {t : List Char} (h : Held s (c :: t))
    (member : x ∈ s.next c t) (apart : s.known ≠ 0 ∨ s.mode ≠ .code ∨ c ≠ '\x7d') : Held x t := by
  rcases h.cons with ⟨rfl, rfl, _⟩ | further
  · simp at apart
  · exact further x member

theorem Held.ne_nil {s : Stage} {t : List Char} (h : Held s t) : t ≠ [] := by
  rintro rfl
  cases h.closes

theorem Held.known {m : Mode} {n : Nat} {o : List Opening} {t : List Char} (h : Held ⟨m, n, o⟩ t) :
    n ≤ t.length ∧ Held ⟨m, 0, o⟩ (t.drop n) := by
  induction n generalizing t with
  | zero => exact ⟨Nat.zero_le _, h⟩
  | succ n ih =>
    cases t with
    | nil => exact absurd rfl h.ne_nil
    | cons c t =>
      have further : Held ⟨m, n, o⟩ t := h.next (by simp [Stage.next]) (Or.inl (Nat.succ_ne_zero n))
      obtain ⟨bound, rest⟩ := ih further
      exact ⟨Nat.succ_le_succ bound, rest⟩

def isPlain (c : Char) : Bool :=
  c != '/' && c != '\\' && c != '\x60' && c != '\'' && c != '"' && !isCloser c && (openedBy c).isNone

theorem afterCode_plain {o : List Opening} {c : Char} {t : List Char} (plain : isPlain c = true) :
    Stage.afterCode o c t = [⟨.code, 0, o⟩] := by
  simp only [isPlain, Bool.and_eq_true, bne_iff_ne, Bool.not_eq_true', Option.isNone_iff_eq_none]
    at plain
  obtain ⟨⟨⟨⟨⟨⟨no_slash, no_escape⟩, no_backtick⟩, no_quote⟩, no_quotes⟩, no_closer⟩, no_opener⟩ := plain
  simp [Stage.afterCode, no_slash, no_escape, no_backtick, no_quote, no_quotes, no_closer, no_opener]

theorem ne_brace_of_isPlain {c : Char} (plain : isPlain c = true) : c ≠ '\x7d' := by
  rintro rfl
  exact absurd plain (by decide)

theorem Held.plain {o : List Opening} {c : Char} {t : List Char} (h : Held ⟨.code, 0, o⟩ (c :: t))
    (plain : isPlain c = true) : Held ⟨.code, 0, o⟩ t := by
  refine h.next ?_ (Or.inr (Or.inr (ne_brace_of_isPlain plain)))
  simp [Stage.next, afterCode_plain plain]

theorem Held.plain_append {o : List Opening} {a t : List Char} (plain : ∀ x ∈ a, isPlain x = true)
    (h : Held ⟨.code, 0, o⟩ (a ++ t)) : Held ⟨.code, 0, o⟩ t := by
  induction a with
  | nil => exact h
  | cons c a ih =>
    exact ih (fun x member => plain x (List.mem_cons_of_mem c member))
      (h.plain (plain c List.mem_cons_self))

theorem Held.opener {o : List Opening} {b : Opening} {c : Char} {t : List Char}
    (opener : openedBy c = some b) (h : Held ⟨.code, 0, o⟩ (c :: t)) : Held ⟨.code, 0, b :: o⟩ t := by
  have bracket : c = '(' ∨ c = '[' ∨ c = '\x7b' := by
    unfold openedBy at opener
    split at opener
    · exact Or.inl ‹_›
    · split at opener
      · exact Or.inr (Or.inl ‹_›)
      · split at opener
        · exact Or.inr (Or.inr ‹_›)
        · cases opener
  rcases bracket with rfl | rfl | rfl
  · obtain rfl := Option.some.inj opener
    exact h.next (List.mem_singleton_self _) (Or.inr (Or.inr (by decide)))
  · obtain rfl := Option.some.inj opener
    exact h.next (List.mem_singleton_self _) (Or.inr (Or.inr (by decide)))
  · obtain rfl := Option.some.inj opener
    exact h.next (List.mem_singleton_self _) (Or.inr (Or.inr (by decide)))

theorem afterCode_closer {o : List Opening} {b : Opening} {t : List Char} :
    Stage.afterCode (b :: o) b.closer t = [⟨if b = .hole then .template else .code, 0, o⟩] := by
  cases b <;> rfl

theorem Held.closer {o : List Opening} {b : Opening} {t : List Char}
    (h : Held ⟨.code, 0, b :: o⟩ (b.closer :: t)) :
    (b = .brace ∧ o = [] ∧ t = ['\n']) ∨ Held ⟨if b = .hole then .template else .code, 0, o⟩ t := by
  rcases h.cons with ⟨last, _, rest⟩ | further
  · obtain ⟨rfl, rfl⟩ := List.cons.inj (congrArg Stage.opened last)
    exact Or.inl ⟨rfl, rfl, rest⟩
  · refine Or.inr (further _ ?_)
    simp [Stage.next, afterCode_closer]

end SourceSpecs.Syntax
