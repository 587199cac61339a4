import SourceSpecs.Proofs.Composition
import SourceSpecs.Proofs.QuotedPath
import SourceSpecs.Proofs.RoundTrip
/-!
Imports by name: a list of bindings between braces, each marked as a type or not and renamed or not,
in one line or in several. The scan finds such an import as one declaration, whatever its bindings
are called, since its two quotes are those of its path.
-/
namespace SourceSpecs.Syntax

open Declaration

structure BindingName where
  chars : List Char
  whole : IsWhole chars
  free : chars ∉ Grammar.words ["type", "as", "typeof", "default"]

structure Blanks where
  chars : List Char
  blank : ∀ x ∈ chars, isSpace x = true

structure Specifier where
  front : Blanks
  typed : Bool
  name : BindingName
  newName : Option BindingName
  behind : Blanks

/-- What comes before the list: nothing, the mark of types, or a binding of the default export. -/
inductive ImportHead where
  | bare
  | typed
  | withDefault (name : BindingName)

/-- An import by name. Its path holds no quote, no backslash and no line break. -/
structure ImportText where
  head : ImportHead
  specifiers : List Specifier
  closing : Blanks
  quote : Char
  path : List Char
  quoted : isQuote quote = true
  plain : ∀ x ∈ path, x ∉ ['\'', '"', '\\', '\n', '\r']

namespace Specifier

def localName (s : Specifier) : BindingName := s.newName.getD s.name

def asChars (s : Specifier) : List Char :=
  match s.newName with
  | some name => " as ".toList ++ name.chars
  | none => []

def coreChars (s : Specifier) : List Char :=
  (if s.typed then "type ".toList else []) ++ (s.name.chars ++ s.asChars)

def chars (s : Specifier) : List Char := s.front.chars ++ (s.coreChars ++ s.behind.chars)

end Specifier

def ImportHead.chars : ImportHead → List Char
  | bare => []
  | typed => "type ".toList
  | withDefault name => name.chars ++ ", ".toList

namespace ImportText

def listChars (i : ImportText) : List Char :=
  setApart [','] (i.specifiers.map Specifier.chars) ++ i.closing.chars

def clauseChars (i : ImportText) : List Char :=
  i.head.chars ++ '\x7b' :: (i.listChars ++ ['\x7d'])

def block (i : ImportText) : Block := .importFrom i.clauseChars i.quote i.path true

/-- The whole statement, with the line break behind it. -/
def chars (i : ImportText) : List Char := i.block.text

def MarksType (i : ImportText) (s : Specifier) : Prop := i.head = .typed ∨ s.typed = true

end ImportText

section Unquoted

theorem not_quote_of_isNamePart {x : Char} (part : isNamePart x = true) : isQuote x = false := by
  by_contra quote
  simp only [isQuote, Bool.or_eq_false_iff, beq_eq_false_iff_ne, not_and_or, not_not] at quote
  rcases quote with rfl | rfl <;> exact absurd part (by decide)

theorem not_quote_of_isSpace {x : Char} (space : isSpace x = true) : isQuote x = false := by
  by_contra quote
  simp only [isQuote, Bool.or_eq_false_iff, beq_eq_false_iff_ne, not_and_or, not_not] at quote
  rcases quote with rfl | rfl <;> exact absurd space (by decide)

def Unquoted (t : List Char) : Prop := ∀ x ∈ t, isQuote x = false

instance : DecidablePred Unquoted := fun t =>
  inferInstanceAs (Decidable (∀ x ∈ t, isQuote x = false))

theorem Unquoted.append {t u : List Char} (h : Unquoted t) (k : Unquoted u) : Unquoted (t ++ u) := by
  intro x member
  exact (List.mem_append.1 member).elim (h x) (k x)

theorem Unquoted.cons {x : Char} {t : List Char} (mark : isQuote x = false) (h : Unquoted t) :
    Unquoted (x :: t) := List.forall_mem_cons.2 ⟨mark, h⟩

theorem BindingName.unquoted (n : BindingName) : Unquoted n.chars := fun x member =>
  not_quote_of_isNamePart (n.whole.parts x member)

theorem Blanks.unquoted (b : Blanks) : Unquoted b.chars := fun x member =>
  not_quote_of_isSpace (b.blank x member)

theorem Specifier.unquoted (s : Specifier) : Unquoted s.chars := by
  have renamed : Unquoted s.asChars := by
    unfold Specifier.asChars
    split
    · exact .append (by decide) (BindingName.unquoted _)
    · exact by decide
  have mark : Unquoted (if s.typed then "type ".toList else []) := by
    split <;> exact by decide
  exact s.front.unquoted.append ((mark.append (s.name.unquoted.append renamed)).append
    s.behind.unquoted)

theorem ImportText.unquoted (i : ImportText) : Unquoted i.clauseChars := by
  have head : Unquoted i.head.chars := by
    cases i.head with
    | bare => exact by decide
    | typed => exact by decide
    | withDefault name => exact name.unquoted.append (by decide)
  have list : Unquoted (setApart [','] (i.specifiers.map Specifier.chars)) := by
    cases i.specifiers with
    | nil => exact by decide
    | cons s rest =>
      refine s.unquoted.append ?_
      intro x member
      obtain ⟨_, inside, member⟩ := List.mem_flatMap.1 member
      obtain ⟨s', _, rfl⟩ := List.mem_map.1 inside
      exact Unquoted.cons (by decide) s'.unquoted x member
  exact head.append (.cons (by decide) ((list.append i.closing.unquoted).append (by decide)))

end Unquoted

end SourceSpecs.Syntax

namespace SourceSpecs.Block

open Declaration Syntax

/-- Two texts that are the same up to their first quotes. -/
theorem unquoted_unique {t u v w : List Char} {q q' : Char} (left : Unquoted t) (right : Unquoted u)
    (quote : isQuote q = true) (quote' : isQuote q' = true) (same : t ++ q :: v = u ++ q' :: w) :
    t = u ∧ v = w := by
  have to_quote {t v : List Char} {q : Char} (bare : Unquoted t) (quote : isQuote q = true) :
      (t ++ q :: v).takeWhile (!isQuote ·) = t := by
    rw [List.takeWhile_append_of_pos fun x member => by simp [bare x member],
      List.takeWhile_cons_of_neg (by simp [quote]), List.append_nil]
  have front : t = u := by
    rw [← to_quote left quote, same, to_quote right quote']
  subst front
  exact ⟨rfl, (List.cons.inj (List.append_cancel_left same)).2⟩

theorem unquoted_of_filter {t : List Char} (none_left : (t.filter isQuote).length = 0) :
    Unquoted t := by
  intro x member
  have none_of := List.filter_eq_nil_iff.1 (List.length_eq_zero_iff.1 none_left) x member
  simpa using none_of

theorem filter_unquoted {t : List Char} (bare : Unquoted t) : t.filter isQuote = [] :=
  List.filter_eq_nil_iff.2 fun x member => by simp [bare x member]

theorem twoQuotes_unique {front path behind front' path' behind' : List Char} {q r r' : Char}
    (bare : Unquoted front) (bare_path : Unquoted path) (bare_behind : Unquoted behind)
    (quote : isQuote q = true) (opens : isQuote r = true) (closes : isQuote r' = true)
    (same : front ++ q :: (path ++ q :: behind) = front' ++ r :: (path' ++ r' :: behind')) :
    front = front' ∧ path = path' ∧ behind = behind' := by
  have count := congrArg (fun t => (t.filter isQuote).length) same
  simp only [List.filter_append, List.filter_cons_of_pos quote, List.filter_cons_of_pos opens,
    List.filter_cons_of_pos closes, filter_unquoted bare, filter_unquoted bare_path,
    filter_unquoted bare_behind, List.length_append, List.length_cons, List.length_nil] at count
  obtain ⟨rfl, rest⟩ := unquoted_unique bare (unquoted_of_filter (by omega)) quote opens same
  exact ⟨rfl, unquoted_unique bare_path (unquoted_of_filter (by omega)) quote closes rest⟩

/-- An import without a quote in its clause is read as a whole, be there another marker in it or not. -/
theorem importFrom_readBy_of_unquoted {clause path : List Char} {q : Char} {semicolon : Bool}
    (bare : Unquoted clause) (quote : isQuote q = true) (formed : IsPath path) :
    ReadBy .importFrom (importFrom clause q path semicolon) [] := by
  intro o
  set b := importFrom clause q path semicolon with b_eq
  set front := "import ".toList ++ (clause ++ " from ".toList) with front_eq
  set closing := given semicolon ";" ++ ['\n'] with closing_eq
  have layout : b.text = front ++ q :: (path ++ q :: closing) := by
    change "import ".toList ++ clause ++ " from ".toList ++ q :: path ++
      q :: given semicolon ";" ++ ['\n'] = _
    simp [front_eq, closing_eq]
  have bare_front : Unquoted front := .append (by decide) (bare.append (by decide))
  have bare_closing : Unquoted closing := by
    cases semicolon
    · exact by decide
    · exact by decide
  have bare_path : Unquoted path := fun x member => (formed x member).1
  have in_line : ∀ x ∈ path, isInLine x = true := fun x member => by
    simp [isInLine, (formed x member).2]
  have ends : closing ∈ Kind.importFrom.closing := by
    refine mem_semicolon_break.2 ?_
    cases semicolon
    · exact Or.inl rfl
    · exact Or.inr rfl
  have written : b.text ∈ Form.importFrom.written := by
    rw [written_importFrom, layout]
    refine ⟨_, rfl, _, ⟨[' '], ⟨by simp, by decide⟩, _, ⟨clause ++ [' '], fun _ _ => rfl, _,
      mem_sourceTail.2 ⟨[' '], q, path, q, closing, by decide, quote, in_line, quote, ends, rfl⟩,
      rfl⟩, rfl⟩, ?_⟩
    simp [front_eq]
  obtain ⟨⟨capture, d⟩, read⟩ := Option.ne_none_iff_exists'.1
    (finds_importFrom.found ⟨b.text, written, Cursor.reads_of_rest (c := ⟨o, b.text ++ []⟩) rfl⟩)
  obtain ⟨s, found, shape⟩ : ∃ s, capture.path? = some s ∧
      ∀ m : Match, shapeOf m capture = .importFrom (part m s) := by
    have kind := at?_kind read ⟨0, [], []⟩
    cases capture with
    | importFrom whole s => exact ⟨s, rfl, fun _ => rfl⟩
    | _ => cases kind
  obtain ⟨front', opener, path', closer, ending, quoted, reads, rfl, _⟩ :=
    readsPath_of_at? read found
  have text := reads.1
  simp only [List.append_nil, layout, List.append_assoc, List.cons_append] at text
  obtain ⟨rfl, rfl, closed⟩ :=
    twoQuotes_unique bare_front bare_path bare_closing quote quoted.opens quoted.closes text
  have nothing : d.rest = [] := by
    rcases mem_semicolon_break.1 quoted.ends with rfl | rfl <;> cases semicolon <;>
      simp_all [given]
  have whole : closing = ending := by rw [closed, nothing, List.append_nil]
  obtain rfl : d = ⟨o + b.text.length, []⟩ := by
    have offset := reads.2
    obtain ⟨n, r⟩ := d
    obtain rfl : r = [] := nothing
    rw [layout, whole]
    simpa using offset
  refine ⟨capture, read, ?_⟩
  intro m starts same
  have parts : m.text = (front ++ [q]) ++ (path ++ q :: closing) := by
    rw [same, layout]
    simp
  rw [shape, ← starts]
  have slice := part_eq parts
  simp only [List.length_append, List.length_singleton] at slice
  exact congrArg (fun path => some (Shape.importFrom path)) slice.symm

end SourceSpecs.Block

namespace SourceSpecs.Syntax.ImportText

open Declaration

variable (i : ImportText)

theorem isPath : Block.IsPath i.path := by
  intro x member
  have apart := i.plain x member
  simp only [List.mem_cons, List.not_mem_nil, or_false, not_or] at apart
  exact ⟨by simp [isQuote, apart.1, apart.2.1], apart.2.2.2.1⟩

theorem scan_chars : scan i.chars = Block.declarationsFrom 0 [i.block] := by
  have layout : i.block.text ++ [] = Block.given false "export " ++
      ((Block.keyword .importFrom).toList ++ (' ' :: i.clauseChars ++ " from ".toList ++
        i.quote :: i.path ++ i.quote :: ";\n".toList)) := by
    change ("import".toList ++ [' ']) ++ i.clauseChars ++ _ ++ i.quote :: i.path ++ _ ++ _ ++ [] = _
    simp [Block.given, Block.keyword]
  obtain ⟨capture, read, shape⟩ := Block.firstForm?_of_readBy false layout
    (Block.importFrom_readBy_of_unquoted i.unquoted i.quoted i.isPath) 0
  have found := Block.scanFrom_block read shape
  rw [List.append_nil] at found
  rw [scan_eq_scanFrom, Cursor.ofText, chars, found, scanFrom_end true rfl]
  rfl

theorem dedent_chars : Text.dedent i.chars = i.chars := by
  have unchanged := Block.dedent_render (List.mem_singleton_self i.block) rfl
  rwa [Block.render, List.flatMap_singleton] at unchanged

/-- What is extracted is one import, with the custom types that its text refers to. -/
theorem extract_chars : (extract (String.ofList i.chars)).result =
    .ok ⟨[], [], [⟨.importFrom, some (String.ofList i.path), String.ofList i.chars,
      collectTypes (String.ofList i.chars)⟩]⟩ := by
  rw [extract, String.toList_ofList, dedent_chars, scan_chars, Block.extract_declarationsFrom]
  exact congrArg (Except.map _) Block.functionSpecs_nil

end SourceSpecs.Syntax.ImportText
