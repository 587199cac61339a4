import SourceSpecs.Proofs.Alternatives
import SourceSpecs.Proofs.QuotedPath
/-!
A declaration and the match it came from. One form took part in the match, with its own parts alone;
what the declaration says of itself stands in its text where these parts were found. No text that is
shorter than an interface, an alias, an import or a require is one of the same form.
-/
namespace SourceSpecs.Declaration

open Text

/-- What a part of a match is to the form it belongs to. -/
inductive Role where
  | whole | exportMark | name | path
  deriving DecidableEq, Repr

def Capture.form : Capture → Form
  | .function _ => .function
  | .interface .. => .interface
  | .typeAlias .. => .typeAlias
  | .importFrom .. => .importFrom
  | .require .. => .require

def Capture.exportMark? : Capture → Option Span
  | .interface _ exported _ | .typeAlias _ exported _ => exported
  | _ => none

def Capture.name? : Capture → Option Span
  | .interface _ _ name | .typeAlias _ _ name => some name
  | _ => none

def Capture.span? (x : Capture) : Role → Option Span
  | .whole => some x.whole
  | .exportMark => x.exportMark?
  | .name => x.name?
  | .path => x.path?

def Match.span? (m : Match) (f : Form) (r : Role) : Option Span :=
  m.captures.findSome? fun x => if x.form = f then x.span? r else none

/-- The form alone took part in the match, and the fields of the declaration are its parts. -/
structure CameFrom (m : Match) (f : Form) (d : Declaration) : Prop where
  kind : d.kind = f.kind
  start : m.start = d.offset
  text : m.text = d.text.toList
  whole : m.span? f .whole = some ⟨d.offset, d.stop⟩
  only : ∀ g r, (m.span? g r).isSome → g = f
  name : d.name? = (m.span? f .name).map (part m)
  exported : d.isExported = (m.span? f .exportMark).isSome
  path : d.fromPath? = (m.span? f .path).map (part m)

def StandsBehind (front part : List Char) (d : Declaration) (place : Option Span) : Prop :=
  place = some ⟨d.offset + front.length, d.offset + front.length + part.length⟩

/-- The parts of a header. Its parameters end at the first parenthesis that can close them. -/
structure HeaderParts (d : Declaration) : Prop where
  ends : ∃ front gap, d.text.toList = front ++ (gap ++ "\x7b\n".toList) ∧ gap ≠ [] ∧
    ∀ x ∈ gap, isBlank x = true
  params : ∃ gap gap' name gap'' params behind,
    d.text.toList = "export".toList ++ gap ++ "function".toList ++ gap' ++ name ++ gap'' ++
      '(' :: (params ++ ')' :: behind) ∧
    (∀ x ∈ gap ++ gap' ++ gap'', isBlank x = true) ∧ Block.IsName name ∧ ')' ∉ params

structure NamedParts (opener closer : String) (m : Match) (f : Form) (d : Declaration) : Prop where
  once : ∃ front, d.text.toList = front ++ closer.toList ∧ Block.ClosesFirst closer front
  name : ∃ front name gap body,
    d.text.toList = front ++ (name ++ (gap ++ (opener.toList ++ body))) ∧
    d.name? = some (String.ofList name) ∧ StandsBehind front name d (m.span? f .name) ∧
    Block.IsName name ∧ ∀ x ∈ gap, isBlank x = true
  exported : d.isExported = true ↔ "export".toList <+: d.text.toList

structure SourceParts (m : Match) (f : Form) (d : Declaration) : Prop where
  path : ∃ front path quote ending, d.text.toList = front ++ (path ++ quote :: ending) ∧
    d.fromPath? = some (String.ofList path) ∧ StandsBehind front path d (m.span? f .path) ∧
    '\n' ∉ path ∧ isQuote quote = true ∧ ending ∈ f.kind.closing

def Parts (m : Match) (d : Declaration) : Form → Prop
  | .function => HeaderParts d
  | .interface => NamedParts "\x7b" "\n\x7d\n" m .interface d
  | .typeAlias => NamedParts "=" ";\n" m .typeAlias d
  | .importFrom => SourceParts m .importFrom d
  | .require => SourceParts m .require d

/-- The form read the match at the place of the declaration, and the one capture of the match is what
    the declaration says of itself. -/
structure ReadAs (t : List Char) (d : Declaration) (m : Match) (f : Form) (x : Capture) (e : Cursor) :
    Prop where
  read : f.at? (cursorAt t d.offset) = some (x, e)
  reads : (cursorAt t d.offset).Reads m.text e
  captures : m.captures = [x]
  start : m.start = d.offset
  text : m.text = d.text.toList
  shape : d.shape = shapeOf m x

section Matches

variable {forms : List Form} {multiline : Bool} {m : Match}

theorem reading_of_mem (lineStart : Bool) (c : Cursor)
    (member : m ∈ (Pattern.ofEach forms multiline).search lineStart c) :
    ∃ u d r, c.Reads u d ∧ oneOf? forms d = some r ∧ m = Match.ofReading d r := by
  induction lineStart, c using (solid_ofEach forms multiline).induction with
  | found lineStart c n d start text reads here ih =>
    rw [search_found text reads here] at member
    rcases List.mem_cons.1 member with rfl | later
    · have read := here true
      rw [matchAt_ofEach] at read
      split at read
      · obtain ⟨r, form, rfl⟩ := Option.map_eq_some_iff.1 read
        exact ⟨[], c, r, Cursor.reads_nil c, form, rfl⟩
      · cases read
    · obtain ⟨u, e, r, reads', read, same⟩ := ih later
      exact ⟨n.text ++ u, e, r, reads.append reads', read, same⟩
  | pass lineStart c x rest misfit e ih =>
    rw [search_pass misfit e] at member
    obtain ⟨u, d, r, reads, read, same⟩ := ih member
    obtain ⟨offset, rest'⟩ := c
    subst e
    exact ⟨x :: u, d, r, Cursor.reads_cons_iff.2 reads, read, same⟩
  | last lineStart c misfit e =>
    rw [search_end misfit e] at member
    cases member

theorem exists_readAs {t : List Char} {d : Declaration} (member : d ∈ scan t) :
    ∃ m ∈ Pattern.declarations.all t, ∃ f x e, ReadAs t d m f x e := by
  obtain ⟨m, found, inside⟩ := List.mem_flatMap.1 member
  obtain ⟨u, c, ⟨x, e⟩, reads, read, same⟩ := reading_of_mem true (Cursor.ofText t) found
  obtain ⟨f, form⟩ := exists_form_of_firstForm? read
  have text := (reads_of_oneOf? read).2
  rw [← same] at text
  have captures : m.captures = [x] := by rw [same]; rfl
  have start : m.start = u.length := by
    rw [same]
    exact reads.2.trans (Nat.zero_add _)
  have place : c = cursorAt t u.length := by
    have offset : c.offset = u.length := reads.2.trans (Nat.zero_add _)
    have rest : c.rest = t.drop u.length := by
      have parts : t = u ++ c.rest := reads.1
      rw [parts, List.drop_left]
    cases c
    simp_all [cursorAt]
  rw [ofMatch, captures, List.map_singleton, List.mem_singleton] at inside
  subst inside
  refine ⟨m, found, f, x, e, ?_, ?_, captures, rfl, String.toList_ofList.symm, rfl⟩
  · exact start ▸ place ▸ form
  · exact start ▸ place ▸ text

end Matches

section Reading

variable {f : Form} {c d : Cursor} {x : Capture}

theorem capture_of_at? (read : f.at? c = some (x, d)) :
    x.form = f ∧ x.whole = ⟨c.offset, d.offset⟩ := by
  have constant : f.read (fun x e => some (x.form, x.whole, e)) c =
      f.read (fun _ e => some (f, ⟨c.offset, e.offset⟩, e)) c := by
    cases f <;> rfl
  rw [f.read_some (fun x e => (x.form, x.whole, e)),
    f.read_some (fun _ e => (f, (⟨c.offset, e.offset⟩ : Span), e)), read] at constant
  obtain ⟨form, places⟩ := Prod.mk.inj (Option.some.inj constant)
  exact ⟨form, (Prod.mk.inj places).1⟩

/-- No shorter text is one of the form. -/
theorem shortest_of_at? {w v : List Char} (other : f ≠ .function) (read : f.at? c = some (x, d))
    (reads : c.Reads w d) (written : v ∈ f.written) (front : v <+: w) : v = w := by
  obtain ⟨u, rfl⟩ := front
  have takes : Takes f.written c ⟨c.offset + v.length, u ++ d.rest⟩ :=
    ⟨v, written, Cursor.reads_of_rest (by rw [reads.1, List.append_assoc])⟩
  have preferred := ((finds_form f).best read).2 _ takes
  have reach : d.offset ≤ c.offset + v.length := by
    cases f with
    | function => exact absurd rfl other
    | _ => exact preferred
  have size := reads.2
  rw [List.length_append] at size
  obtain rfl : u = [] := List.length_eq_zero_iff.1 (by omega)
  exact (List.append_nil v).symm

end Reading

namespace ReadAs

variable {t : List Char} {d : Declaration} {m : Match} {f : Form} {x : Capture} {e : Cursor}

theorem text_eq (read : ReadAs t d m f x e) {w : List Char}
    (reads : (cursorAt t d.offset).Reads w e) : d.text.toList = w :=
  read.text.symm.trans (List.append_cancel_right (read.reads.1.symm.trans reads.1))

theorem written (read : ReadAs t d m f x e) : d.text.toList ∈ f.written := by
  obtain ⟨w, written, reads⟩ : Takes f.written _ _ := ((finds_form f).best read.read).1
  exact read.text_eq reads ▸ written

theorem form (read : ReadAs t d m f x e) : x.form = f := (capture_of_at? read.read).1

theorem span?_eq (read : ReadAs t d m f x e) (g : Form) (r : Role) :
    m.span? g r = if f = g then x.span? r else none := by
  simp [Match.span?, read.captures, read.form]

theorem span?_own (read : ReadAs t d m f x e) (r : Role) : m.span? f r = x.span? r := by
  rw [read.span?_eq, if_pos rfl]

theorem cameFrom (read : ReadAs t d m f x e) : CameFrom m f d := by
  have stop : e.offset = d.stop := by
    rw [Declaration.stop, ← read.text]
    exact read.reads.2
  refine ⟨?_, read.start, read.text, ?_, ?_, ?_, ?_, ?_⟩
  · rw [Declaration.kind, read.shape]
    exact at?_kind read.read m
  · rw [read.span?_own, Capture.span?, (capture_of_at? read.read).2, stop]
    rfl
  · intro g r found
    by_contra other
    rw [read.span?_eq, if_neg fun same => other same.symm] at found
    cases found
  · rw [read.span?_own, Declaration.name?, read.shape]
    cases x <;> rfl
  · rw [read.span?_own, Declaration.isExported, read.shape]
    cases x <;> rfl
  · rw [read.span?_own]
    exact fromPath?_eq read.shape

theorem part_eq (read : ReadAs t d m f x e) {front part behind : List Char}
    (text : d.text.toList = front ++ (part ++ behind)) {s : Option Span}
    (place : StandsBehind front part d s) :
    s.map (Declaration.part m) = some (String.ofList part) := by
  rw [place, ← read.start, Option.map_some]
  exact congrArg some (Block.part_eq (read.text.trans text))

end ReadAs

structure Delimits (keyword opener closer : String) : Prop where
  keyword_words : ∀ x ∈ keyword.toList, isWord x = true
  keyword_first : ∃ x ∈ keyword.toList.head?, x ≠ 'e'
  opener_some : opener.toList ≠ []
  opener_apart : ∀ x ∈ opener.toList, x ∉ closer.toList
  closer_shown : ∃ x ∈ closer.toList, isBlank x = false ∧ isWord x = false

structure NamedText (keyword opener closer : String) where
  mark : Option (List Char)
  gap : List Char
  name : List Char
  space : List Char
  body : List Char
  mark_blank : ∀ blanks ∈ mark, ∀ x ∈ blanks, isBlank x = true
  gap_blank : ∀ x ∈ gap, isBlank x = true
  name_formed : Block.IsName name
  space_blank : ∀ x ∈ space, isBlank x = true
  closes : Block.ClosesFirst closer body

namespace NamedText

variable {keyword opener closer : String} (n : NamedText keyword opener closer)

def exportPart : List Char := n.mark.elim [] ("export".toList ++ ·)

def front : List Char := n.exportPart ++ (keyword.toList ++ n.gap)

def text : List Char :=
  n.front ++ (n.name ++ (n.space ++ (opener.toList ++ (n.body ++ closer.toList))))

variable {n}

theorem begins_with_export (delimits : Delimits keyword opener closer) :
    "export".toList <+: n.text ↔ n.mark.isSome = true := by
  constructor
  · intro begins
    by_contra unmarked
    obtain ⟨x, first, not_e⟩ := delimits.keyword_first
    have plain : n.mark = none := by simpa using unmarked
    obtain ⟨rest, parts⟩ := begins
    have head : n.text.head? = keyword.toList.head? := by
      cases keyword_eq : keyword.toList with
      | nil => simp [keyword_eq] at first
      | cons y rest => simp [text, front, exportPart, plain, keyword_eq]
    rw [← parts, Option.mem_def.1 first] at head
    exact not_e (Option.some.inj head).symm
  · intro marked
    obtain ⟨blanks, marked⟩ := Option.isSome_iff_exists.1 marked
    simp [text, front, exportPart, marked]

theorem isBlank_or_isWord (delimits : Delimits keyword opener closer) {x : Char}
    (member : x ∈ n.front ++ (n.name ++ n.space)) : isBlank x = true ∨ isWord x = true := by
  have marks (inside : x ∈ n.exportPart) : isBlank x = true ∨ isWord x = true := by
    rw [exportPart] at inside
    cases mark : n.mark with
    | none => simp [mark] at inside
    | some blanks =>
      rw [mark, Option.elim_some, List.mem_append] at inside
      have wordy : ∀ y ∈ "export".toList, isWord y = true := by decide +kernel
      exact inside.symm.imp (n.mark_blank blanks mark x) (wordy x)
  simp only [front, List.mem_append] at member
  rcases member with (mark | keyword | gap) | name | space
  · exact marks mark
  · exact Or.inr (delimits.keyword_words x keyword)
  · exact Or.inl (n.gap_blank x gap)
  · exact Or.inr (n.name_formed.2 x name)
  · exact Or.inl (n.space_blank x space)

theorem exists_closesFirst (delimits : Delimits keyword opener closer) :
    ∃ front, n.text = front ++ closer.toList ∧ Block.ClosesFirst closer front := by
  have free : Block.FreeOf closer.toList (n.front ++ (n.name ++ n.space) ++ opener.toList) := by
    obtain ⟨x, inside, not_blank, not_word⟩ := delimits.closer_shown
    refine Block.freeOf_append (fun within => ?_) delimits.opener_some delimits.opener_apart
      (List.ne_nil_of_mem inside)
    rcases isBlank_or_isWord delimits (within.subset inside) with blank | word
    · simp [not_blank] at blank
    · simp [not_word] at word
  refine ⟨n.front ++ (n.name ++ n.space) ++ opener.toList ++ n.body, ?_,
    Block.closesFirst_append free n.closes⟩
  simp only [text, List.append_assoc]

end NamedText

section Named

variable {keyword opener closer : String} {capture : Span → Option Span → Span → Capture}
  {c d : Cursor} {x : Capture}

theorem reads_exportMark (c : Cursor) : ∃ mark : Option (List Char),
    (exportMark c).1.isSome = mark.isSome ∧ (∀ blanks ∈ mark, ∀ x ∈ blanks, isBlank x = true) ∧
      c.Reads (mark.elim [] ("export".toList ++ ·)) (exportMark c).2 := by
  rw [exportMark]
  split
  · rename_i d marked
    obtain ⟨e, exported, spaced⟩ := Option.bind_eq_some_iff.1 marked
    obtain ⟨blanks, reads, _, inside, _⟩ := Cursor.skipSome?_eq_some_iff.1 spaced
    refine ⟨some blanks, rfl, ?_, (Cursor.past?_eq_some_iff.1 exported).append reads⟩
    rintro _ ⟨⟩
    exact inside
  · exact ⟨none, rfl, by simp, Cursor.reads_nil c⟩

theorem reads_namedAfter {s : Span} (read : namedAfter keyword c = some (s, d)) :
    ∃ gap name, c.Reads (keyword.toList ++ gap ++ name) d ∧ (∀ x ∈ gap, isBlank x = true) ∧
      Block.IsName name ∧ s = ⟨c.offset + (keyword.toList ++ gap).length, d.offset⟩ := by
  obtain ⟨a, opened, read⟩ := Option.bind_eq_some_iff.1 read
  obtain ⟨b, spaced, read⟩ := Option.bind_eq_some_iff.1 read
  obtain ⟨e, named, last⟩ := Option.bind_eq_some_iff.1 read
  obtain ⟨rfl, rfl⟩ := Prod.mk.inj (Option.some.inj last)
  obtain ⟨gap, gap_reads, _, gap_blank, _⟩ := Cursor.skipSome?_eq_some_iff.1 spaced
  obtain ⟨name, name_reads, nonempty, wordy, _⟩ := Cursor.skipSome?_eq_some_iff.1 named
  have to_name := (Cursor.past?_eq_some_iff.1 opened).append gap_reads
  exact ⟨gap, name, to_name.append name_reads, gap_blank, ⟨nonempty, wordy⟩,
    by rw [to_name.2]⟩

theorem closesFirst_of_firstAlong {place : Cursor → Capture}
    (found : c.firstAlong (fun _ => true) (fun d => (word closer d).bind fun d =>
      some (place d, d)) = some (x, d)) :
    ∃ body, c.Reads (body ++ closer.toList) d ∧ x = place d ∧ Block.ClosesFirst closer body := by
  obtain ⟨body, e, body_reads, _, closed, before⟩ := Cursor.exists_of_firstAlong found
  obtain ⟨_, closer_read, last⟩ := Option.bind_eq_some_iff.1 closed
  obtain ⟨rfl, rfl⟩ := Prod.mk.inj (Option.some.inj last.symm)
  have reads := body_reads.append (Cursor.past?_eq_some_iff.1 closer_read)
  refine ⟨body, reads, rfl, ?_⟩
  rintro i less ⟨rest, parts⟩
  have size : (body.take i).length = i := List.length_take_of_le (Nat.le_of_lt less)
  have layout : c.rest = body.take i ++ (closer.toList ++ (rest ++ d.rest)) := by
    rw [reads.1, ← List.append_assoc closer.toList, parts, ← List.append_assoc,
      ← List.take_append_of_le_length (Nat.le_of_lt less), List.take_append_drop]
  have misfit := before _ _ (Cursor.reads_of_rest layout) (by rwa [size])
  rw [Block.word_append, Option.bind_some] at misfit
  cases misfit

theorem namedText_of_readNamed
    (h : readNamed keyword opener closer capture (fun x d => some (x, d)) c = some (x, d)) :
    ∃ (n : NamedText keyword opener closer) (exported : Option Span),
      x = capture ⟨c.offset, d.offset⟩ exported
        ⟨c.offset + n.front.length, c.offset + n.front.length + n.name.length⟩ ∧
      exported.isSome = n.mark.isSome ∧ c.Reads n.text d := by
  simp only [readNamed, Option.bind_eq_bind, Option.bind_eq_some_iff] at h
  obtain ⟨⟨s, c₁⟩, named, c₂, opened, found⟩ := h
  obtain ⟨mark, same, mark_blank, mark_reads⟩ := reads_exportMark c
  obtain ⟨gap, name, name_reads, gap_blank, name_formed, rfl⟩ := reads_namedAfter named
  obtain ⟨space, space_reads, space_blank, _⟩ :=
    Cursor.skip_eq_iff.1 (rfl : c₁.skip isBlank = c₁.skip isBlank)
  obtain ⟨body, body_reads, rfl, closes⟩ := closesFirst_of_firstAlong found
  let n : NamedText keyword opener closer :=
    ⟨mark, gap, name, space, body, mark_blank, gap_blank, name_formed, space_blank, closes⟩
  have to_end := ((mark_reads.append name_reads).append space_reads).append
    ((Cursor.past?_eq_some_iff.1 opened).append body_reads)
  refine ⟨n, (exportMark c).1, ?_, same, ?_⟩
  · rw [name_reads.2, mark_reads.2]
    simp only [n, NamedText.front, NamedText.exportPart, List.length_append, Nat.add_assoc]
  · simpa only [n, NamedText.text, NamedText.front, NamedText.exportPart, List.append_assoc]
      using to_end

theorem namedParts (delimits : Delimits keyword opener closer) {f : Form} {m : Match}
    {d : Declaration} {e : Cursor} {t : List Char}
    (named : ∀ s exported name, (capture s exported name).name? = some name)
    (marked : ∀ s exported name, (capture s exported name).exportMark? = exported)
    (reader : f.at? = readNamed keyword opener closer capture fun x d => some (x, d))
    (read : ReadAs t d m f x e) : NamedParts opener closer m f d := by
  have found := read.read
  rw [reader] at found
  obtain ⟨n, exported, rfl, same, reads⟩ := namedText_of_readNamed found
  have text := read.text_eq reads
  have place : StandsBehind n.front n.name d (m.span? f .name) := by
    rw [read.span?_own, Capture.span?, named]
    rfl
  refine ⟨?_, ?_, ?_⟩
  · rw [text]
    exact NamedText.exists_closesFirst delimits
  · exact ⟨n.front, n.name, n.space, n.body ++ closer.toList, text,
      read.cameFrom.name.trans (read.part_eq text place), place, n.name_formed, n.space_blank⟩
  · rw [read.cameFrom.exported, read.span?_own, Capture.span?, marked, same, text,
      NamedText.begins_with_export delimits]

end Named

theorem sourceParts {f : Form} {m : Match} {d : Declaration} {e : Cursor} {t : List Char}
    {x : Capture} {s : Span} (read : ReadAs t d m f x e) (found : x.path? = some s) :
    SourceParts m f d := by
  obtain ⟨front, opener, path, closer, ending, quoted, reads, place, _⟩ :=
    readsPath_of_at? read.read found
  have text : d.text.toList = (front ++ [opener]) ++ (path ++ closer :: ending) := by
    rw [read.text_eq reads]
    simp
  have stands : StandsBehind (front ++ [opener]) path d (m.span? f .path) := by
    rw [read.span?_own, Capture.span?, found, place, StandsBehind, List.length_append]
    rfl
  exact ⟨front ++ [opener], path, closer, ending, text,
    read.cameFrom.path.trans (read.part_eq text stands), stands, quoted.inLine, quoted.closes,
    quoted.ends⟩

theorem headerParts {d : Declaration} (written : d.text.toList ∈ Form.function.written) :
    HeaderParts d := by
  constructor
  · have last : Form.function.written =
        Form.function.parts.dropLast.dropLast.prod * (runSome isBlank * exactly "\x7b\n") := by
      simp [Form.written, Form.parts, mul_assoc]
    rw [last] at written
    obtain ⟨front, _, _, ⟨gap, ⟨nonempty, blank⟩, _, rfl, rfl⟩, text⟩ := Language.mem_mul.1 written
    exact ⟨front, gap, text.symm, nonempty, blank⟩
  · simp only [Form.written, Form.parts, List.prod_cons] at written
    obtain ⟨_, rfl, _, spaced, text⟩ := Language.mem_mul.1 written
    obtain ⟨gap, ⟨_, gap_blank⟩, _, keyword, rfl⟩ := Language.mem_mul.1 spaced
    obtain ⟨_, rfl, _, spaced', rfl⟩ := Language.mem_mul.1 keyword
    obtain ⟨gap', ⟨_, gap'_blank⟩, _, named, rfl⟩ := Language.mem_mul.1 spaced'
    obtain ⟨name, formed, _, spaced'', rfl⟩ := Language.mem_mul.1 named
    obtain ⟨gap'', gap''_blank, _, opened, rfl⟩ := Language.mem_mul.1 spaced''
    obtain ⟨_, rfl, _, listed, rfl⟩ := Language.mem_mul.1 opened
    obtain ⟨params, inside, _, closed, rfl⟩ := Language.mem_mul.1 listed
    obtain ⟨_, rfl, behind, _, rfl⟩ := Language.mem_mul.1 closed
    refine ⟨gap, gap', name, gap'', params, behind, ?_, ?_, formed, fun closes => ?_⟩
    · rw [← text]
      simp
    · intro x member
      simp only [List.mem_append] at member
      rcases member with (first | second) | third
      · exact gap_blank x first
      · exact gap'_blank x second
      · exact gap''_blank x third
    · exact absurd (inside _ closes) (by decide)

theorem ReadAs.parts {t : List Char} {d : Declaration} {m : Match} {f : Form} {x : Capture}
    {e : Cursor} (read : ReadAs t d m f x e) : Parts m d f := by
  have form := read.form
  cases f with
  | function => exact headerParts read.written
  | interface =>
    exact namedParts ⟨by decide +kernel, ⟨'i', rfl, by decide⟩, by decide, by decide,
      ⟨'\x7d', by decide, by decide, by decide +kernel⟩⟩ (fun _ _ _ => rfl) (fun _ _ _ => rfl) rfl
      read
  | typeAlias =>
    exact namedParts ⟨by decide +kernel, ⟨'t', rfl, by decide⟩, by decide, by decide,
      ⟨';', by decide, by decide, by decide +kernel⟩⟩ (fun _ _ _ => rfl) (fun _ _ _ => rfl) rfl read
  | importFrom =>
    cases x with
    | importFrom => exact sourceParts read rfl
    | _ => cases form
  | require =>
    cases x with
    | require => exact sourceParts read rfl
    | _ => cases form

/-- A declaration comes from a match in which one form took part, with its own parts alone. It is
    the shortest text of this form, unless it is a header, and its fields are these parts. -/
theorem parts_of_scan {t : List Char} {d : Declaration} (member : d ∈ scan t) :
    ∃ m ∈ Pattern.declarations.all t, ∃ f, CameFrom m f d ∧ d.text.toList ∈ f.written ∧
      (f ≠ .function → ∀ w ∈ f.written, w <+: d.text.toList → w = d.text.toList) ∧ Parts m d f := by
  obtain ⟨m, found, f, x, e, read⟩ := exists_readAs member
  refine ⟨m, found, f, read.cameFrom, read.written, fun other w shorter front => ?_, read.parts⟩
  exact shortest_of_at? other read.read (read.text ▸ read.reads) shorter front

def twoLineAlias : List Char := "export type A =\n  | B;\n".toList

theorem parts_of_scan_twoLineAlias :
    ∃ d ∈ scan twoLineAlias, d.name? = some "A" ∧ d.isExported = true ∧
      ∃ m ∈ Pattern.declarations.all twoLineAlias, ∃ f, CameFrom m f d ∧ d.text.toList ∈ f.written ∧
        (f ≠ .function → ∀ w ∈ f.written, w <+: d.text.toList → w = d.text.toList) ∧
        Parts m d f := by
  have read : firstForm? (Cursor.ofText twoLineAlias) =
      some (.typeAlias ⟨0, 23⟩ (some ⟨0, 7⟩) ⟨12, 13⟩, ⟨23, []⟩) := by decide +kernel
  exact ⟨_, mem_scan_of_firstForm? read, by decide +kernel, by decide +kernel,
    parts_of_scan (mem_scan_of_firstForm? read)⟩

end SourceSpecs.Declaration
