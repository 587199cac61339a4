import SourceSpecs.Proofs.BlockReading
/-!
The path of an import or a require, and the quotes around it. The path goes on up to the nearest
quote that a closing part follows, be it the quote that opened the path or the other one. So it is
one module specifier just where the closing part follows the first quote that could end it.
-/
namespace SourceSpecs.Declaration

open Text

def Capture.path? : Capture → Option Span
  | .importFrom _ path | .require _ path => some path
  | _ => none

def Kind.closing : Kind → Language Char
  | .importFrom => maybe (exactly ";") * exactly "\n"
  | .require => run isBlank * (exactly ")" * (maybe (exactly ";") * exactly "\n"))
  | _ => 0

def pathSpan? (t : List Char) (d : Declaration) : Option Span :=
  (firstForm? (cursorAt t d.offset)).bind fun r => r.1.path?

/-- A path between quotes, in one line, with a closing part behind it. -/
structure Quoted (C : Language Char) (opener : Char) (path : List Char) (closer : Char)
    (ending : List Char) : Prop where
  opens : isQuote opener = true
  closes : isQuote closer = true
  inLine : '\n' ∉ path
  ends : ending ∈ C

def ClosesAt (C : Language Char) (text p : List Char) (quote : Char) : Prop :=
  isQuote quote = true ∧ ∃ ending ∈ C, ∃ rest, text = p ++ quote :: (ending ++ rest)

/-- On the way from `c` to `d` a path was read at `s`. No shorter one could have been closed. -/
inductive ReadsPath (C : Language Char) (c : Cursor) (s : Span) (d : Cursor) : Prop where
  | between (front : List Char) (opener : Char) (path : List Char) (closer : Char)
      (ending : List Char) (quoted : Quoted C opener path closer ending)
      (reads : c.Reads (front ++ opener :: (path ++ closer :: ending)) d)
      (place : s = ⟨c.offset + (front.length + 1), c.offset + (front.length + 1) + path.length⟩)
      (nearest : ∀ p quote, ClosesAt C (path ++ closer :: (ending ++ d.rest)) p quote →
        path.length ≤ p.length)

section Reading

variable {C : Language Char} {close : Cursor → Option Cursor} {c d e : Cursor} {x : Capture}
  {s : Span}

theorem ReadsPath.after {u : List Char} (reads : c.Reads u e) (h : ReadsPath C e s d) :
    ReadsPath C c s d := by
  obtain ⟨front, opener, path, closer, ending, quoted, behind, place, nearest⟩ := h
  refine .between (u ++ front) opener path closer ending quoted ?_ ?_ nearest
  · rw [List.append_assoc]
    exact reads.append behind
  · rw [place, reads.2, List.length_append]
    simp only [Nat.add_assoc]

theorem readsPath_of_readSource {marker : String} {capture : Span → Span → Capture} {start : Nat}
    (close_iff : ∀ {c d}, Takes C c d ↔ close c = some d)
    (h : readSource marker close capture (fun x d => some (x, d)) start c = some (x, d)) :
    ∃ s, x = capture ⟨start, d.offset⟩ s ∧ ReadsPath C c s d := by
  simp only [readSource, Option.bind_eq_bind, Option.bind_eq_some_iff] at h
  obtain ⟨c₁, marked, ⟨opener, c₂⟩, opened, found⟩ := h
  obtain ⟨path, stop, path_reads, in_line, found, before⟩ := Cursor.exists_of_firstAlong found
  obtain ⟨⟨closer, c₃⟩, closed, found⟩ := Option.bind_eq_some_iff.1 found
  obtain ⟨_, ended, found⟩ := Option.bind_eq_some_iff.1 found
  obtain ⟨rfl, rfl⟩ := Prod.mk.inj (Option.some.inj found)
  obtain ⟨gap, gap_reads, _, _⟩ := Cursor.skip_eq_iff.1 (rfl : c₁.skip isBlank = c₁.skip isBlank)
  obtain ⟨opener_reads, opener_quote⟩ := Cursor.next?_eq_some_iff.1 opened
  obtain ⟨closer_reads, closer_quote⟩ := Cursor.next?_eq_some_iff.1 closed
  obtain ⟨ending, ending_closes, ending_reads⟩ := close_iff.2 ended
  have to_path := ((Cursor.past?_eq_some_iff.1 marked).append gap_reads).append opener_reads
  have behind := (path_reads.append closer_reads).append ending_reads
  refine ⟨_, rfl, .between (marker.toList ++ gap) opener path closer ending
    ⟨opener_quote, closer_quote, fun inside => ?_, ending_closes⟩ ?_ ?_ ?_⟩
  · exact absurd (in_line '\n' inside) (by decide)
  · simpa using to_path.append behind
  · have start_offset := to_path.2
    rw [List.length_append, List.length_singleton] at start_offset
    rw [path_reads.2, start_offset]
  · rintro p quote ⟨is_quote, other, other_closes, rest, parts⟩
    by_contra shorter
    -- a shorter path would have been found first
    have text : c₂.rest = p ++ quote :: (other ++ rest) := by
      rw [← parts, behind.1]
      simp
    have misfit := before p _ (Cursor.reads_of_rest text) (Nat.lt_of_not_le shorter)
    have closes : close ⟨c₂.offset + p.length + 1, other ++ rest⟩ = some _ :=
      close_iff.1 ⟨other, other_closes, Cursor.reads_of_rest rfl⟩
    simp [Cursor.next?, is_quote, closes] at misfit

theorem kind_of_path? (found : x.path? = some s) (m : Match) :
    (shapeOf m x).kind = .importFrom ∨ (shapeOf m x).kind = .require := by
  cases x with
  | importFrom => exact Or.inl rfl
  | require => exact Or.inr rfl
  | _ => cases found

theorem readsPath_of_at? {f : Form} (read : f.at? c = some (x, d)) (found : x.path? = some s) :
    ReadsPath f.kind.closing c s d := by
  have kind := kind_of_path? found ⟨0, [], []⟩
  rw [at?_kind read] at kind
  cases f with
  | importFrom =>
    rw [Form.at?, Form.read, readImport_eq] at read
    obtain ⟨c₁, opened, read⟩ := Option.bind_eq_some_iff.1 read
    obtain ⟨c₂, spaced, read⟩ := Option.bind_eq_some_iff.1 read
    obtain ⟨u, e, reads, _, read, _⟩ := Cursor.exists_of_firstAlong read
    obtain ⟨g, gap_reads, _⟩ := Cursor.skipSome?_eq_some_iff.1 spaced
    obtain ⟨_, rfl, path⟩ := readsPath_of_readSource takes_lineEnd_iff read
    obtain rfl := Option.some.inj found
    exact path.after (((Cursor.past?_eq_some_iff.1 opened).append gap_reads).append reads)
  | require =>
    rw [Form.at?, Form.read, readRequire_eq] at read
    obtain ⟨c₁, opened, read⟩ := Option.bind_eq_some_iff.1 read
    obtain ⟨u, e, reads, _, read, _⟩ := Cursor.exists_of_firstAlong read
    obtain ⟨_, rfl, path⟩ := readsPath_of_readSource takes_callEnd_iff read
    obtain rfl := Option.some.inj found
    exact path.after ((Cursor.past?_eq_some_iff.1 opened).append reads)
  | _ => simp [Form.kind] at kind

end Reading

/-- How the path of a declaration stands in its text. -/
structure HasPath (t : List Char) (d : Declaration) (front : List Char) (opener : Char)
    (path : List Char) (closer : Char) (ending : List Char) : Prop where
  text : d.text.toList = front ++ opener :: (path ++ closer :: ending)
  place : pathSpan? t d =
    some ⟨d.offset + (front.length + 1), d.offset + (front.length + 1) + path.length⟩

theorem HasPath.behind {t front path ending : List Char} {d : Declaration} {opener closer : Char}
    (stands : HasPath t d front opener path closer ending) (piece : Piece t d) :
    t.drop (d.offset + (front.length + 1)) = path ++ closer :: (ending ++ t.drop d.stop) := by
  have size : front.length + 1 = (front ++ [opener]).length := by simp
  have layout : d.text.toList ++ t.drop d.stop =
      (front ++ [opener]) ++ (path ++ closer :: (ending ++ t.drop d.stop)) := by simp [stands.text]
  rw [← List.drop_drop, piece.text.1, size, layout, List.drop_left]

/-- The path is a single module specifier: it stands in one line, between two quotes of one kind, and
    holds no other quote of that kind. -/
def IsSpecifier (opener : Char) (path : List Char) (closer : Char) : Prop :=
  opener = closer ∧ opener ∉ path ∧ '\n' ∉ path

section Scan

variable {t : List Char} {d : Declaration} {path : String}

theorem fromPath?_eq {capture : Capture} {m : Match} (shape : d.shape = shapeOf m capture) :
    d.fromPath? = capture.path?.map (part m) := by
  rw [fromPath?, shape]
  cases capture <;> rfl

theorem exists_hasPath (member : d ∈ scan t) (given : d.fromPath? = some path) :
    ∃ front opener closer ending, HasPath t d front opener path.toList closer ending ∧
      Quoted d.kind.closing opener path.toList closer ending ∧
      ∀ p quote, ClosesAt d.kind.closing (path.toList ++ closer :: (ending ++ t.drop d.stop)) p quote →
        path.length ≤ p.length := by
  obtain ⟨capture, read, same⟩ := (((tiled_scan t).piece d member).2).read
  obtain ⟨f, form⟩ := exists_form_of_firstForm? read
  have shape := congrArg Declaration.shape same
  rw [fromPath?_eq shape] at given
  obtain ⟨s, found, part_eq⟩ := Option.map_eq_some_iff.1 given
  have kind : d.kind = f.kind := by
    rw [Declaration.kind, shape]
    exact at?_kind form _
  obtain ⟨front, opener, chars, closer, ending, quoted, reads, place, nearest⟩ :=
    readsPath_of_at? form found
  have text : d.text.toList = front ++ opener :: (chars ++ closer :: ending) := by
    rw [congrArg Declaration.text same, between_text reads, String.toList_ofList]
  obtain rfl : path = String.ofList chars := by
    have layout : d.text.toList = (front ++ [opener]) ++ (chars ++ closer :: ending) := by simp [text]
    have size : front.length + 1 = (front ++ [opener]).length := by simp
    rw [congrArg Declaration.text same, between, String.toList_ofList] at layout
    rw [← part_eq, place, size]
    exact Block.part_eq layout
  rw [kind, String.toList_ofList]
  refine ⟨front, opener, closer, ending, ⟨text, ?_⟩, quoted, by simpa [cursorAt] using nearest⟩
  rw [pathSpan?, read, Option.bind_some, found, place]
  rfl

theorem closing_kind (k : Kind) : Closing k.closing := by
  cases k with
  | importFrom => exact closing_lineEnd
  | require => exact closing_callEnd
  | _ =>
    refine ⟨fun w member => ?_, fun w member => ?_, fun w member => ?_⟩ <;>
      exact absurd member (Language.notMem_zero w)

/-- A path that ends at the nearest quote which can close it is a single specifier if that is the
    first quote that should close it. -/
theorem isSpecifier_iff {C : Language Char} (closing : Closing C) {opener closer : Char}
    {path ending rest : List Char} (quoted : Quoted C opener path closer ending)
    (nearest : ∀ p quote, ClosesAt C (path ++ closer :: (ending ++ rest)) p quote →
      path.length ≤ p.length) :
    IsSpecifier opener path closer ↔ ∃ p, opener ∉ p ∧ '\n' ∉ p ∧
      ClosesAt C (path ++ closer :: (ending ++ rest)) p opener := by
  constructor
  · rintro ⟨rfl, free, inLine⟩
    exact ⟨path, free, inLine, quoted.opens, ending, quoted.ends, rest, rfl⟩
  · rintro ⟨p, free, inLine, closes⟩
    have reach := nearest p opener closes
    obtain ⟨_, _, _, rest', parts⟩ := closes
    obtain ⟨w, rfl⟩ := List.prefix_of_prefix_length_le ⟨_, rfl⟩ ⟨_, parts.symm⟩ reach
    rw [List.append_assoc, List.append_cancel_left_eq] at parts
    cases w with
    | nil =>
      rw [List.append_nil] at free
      exact ⟨(List.cons.inj parts).1.symm, free, quoted.inLine⟩
    | cons x w =>
      -- the path would have ended earlier, and its closing part would break the line
      have behind := (List.cons.inj parts).2
      rcases List.append_eq_append_iff.1 behind with ⟨v, rfl, _⟩ | ⟨v, rfl, same⟩
      · have line_break := List.mem_of_getLast? (closing.line_break ending quoted.ends)
        exact absurd (by simp [line_break]) inLine
      · cases v with
        | nil =>
          have line_break := List.mem_of_getLast? (closing.line_break _ quoted.ends)
          exact absurd (by simpa using Or.inr (Or.inr line_break)) inLine
        | cons y v =>
          obtain ⟨rfl, _⟩ := List.cons.inj same
          have plain := closing.no_quote _ quoted.ends opener (by simp)
          rw [quoted.opens] at plain
          cases plain

/-- The path of an import or a require stands in one line between two quotes, and it goes up to the
    nearest quote that a closing part follows. It is a single module specifier if and only if the
    first quote of the kind that opened it, in the same line, has a closing part behind it. -/
theorem path_isSpecifier_iff (member : d ∈ scan t) (given : d.fromPath? = some path) :
    ∃ front opener closer ending, HasPath t d front opener path.toList closer ending ∧
      Quoted d.kind.closing opener path.toList closer ending ∧
      (∀ p quote, ClosesAt d.kind.closing (t.drop (d.offset + (front.length + 1))) p quote →
        path.length ≤ p.length) ∧
      (IsSpecifier opener path.toList closer ↔ ∃ p, opener ∉ p ∧ '\n' ∉ p ∧
        ClosesAt d.kind.closing (t.drop (d.offset + (front.length + 1))) p opener) := by
  obtain ⟨front, opener, closer, ending, stands, quoted, nearest⟩ := exists_hasPath member given
  refine ⟨front, opener, closer, ending, stands, quoted, ?_⟩
  have behind := stands.behind ((tiled_scan t).piece d member).2
  rw [behind]
  exact ⟨nearest, isSpecifier_iff (closing_kind d.kind) quoted nearest⟩

theorem mem_scan_of_firstForm? {capture : Capture} {c : Cursor}
    (read : firstForm? (Cursor.ofText t) = some (capture, c)) :
    between (Cursor.ofText t) capture c ∈ scan t := by
  rw [scan_eq_scanFrom, scanFrom_found read]
  exact List.mem_cons_self

end Scan

def quotedRequire : List Char := "const a = require(\"it's\" );\n".toList

theorem path_isSpecifier_quotedRequire :
    ∃ d ∈ scan quotedRequire, d.fromPath? = some "it's" ∧
      ∃ front closer ending, HasPath quotedRequire d front '"' "it's".toList closer ending ∧
        IsSpecifier '"' "it's".toList closer := by
  have read : firstForm? (Cursor.ofText quotedRequire) =
      some (.require ⟨0, 28⟩ ⟨19, 23⟩, ⟨28, []⟩) := by decide +kernel
  set d := between (Cursor.ofText quotedRequire) (.require ⟨0, 28⟩ ⟨19, 23⟩) ⟨28, []⟩ with d_eq
  have member : d ∈ scan quotedRequire := mem_scan_of_firstForm? read
  have given : d.fromPath? = some "it's" := by decide +kernel
  refine ⟨d, member, given, ?_⟩
  obtain ⟨front, opener, closer, ending, stands, _, _, iff⟩ := path_isSpecifier_iff member given
  have place : pathSpan? quotedRequire d = some ⟨19, 23⟩ := by decide +kernel
  have size : front.length = 18 := by
    have start := congrArg Span.start (Option.some.inj (stands.place.symm.trans place))
    change 0 + (front.length + 1) = 19 at start
    omega
  have text : d.text.toList = "const a = require(".toList ++ '"' :: "it's\" );\n".toList := by
    decide +kernel
  obtain ⟨rfl, behind⟩ := List.append_inj (stands.text.symm.trans text) size
  obtain ⟨rfl, _⟩ := List.cons.inj behind
  refine ⟨_, closer, ending, stands, iff.2 ⟨"it's".toList, by decide, by decide, by decide, ?_⟩⟩
  refine ⟨" );\n".toList, mem_callEnd.2 ⟨[' '], [';'], by decide, Or.inr rfl, rfl⟩, [], ?_⟩
  decide +kernel

def twoImports : List Char := "import a from 'x'; import b from 'y';\n".toList

/-- Two imports in one line are read as one, and its path runs from the first specifier to the end of
    the second. -/
theorem path_not_specifier :
    ¬ ∀ (t : List Char) (d : Declaration) (path : String) (front : List Char) (opener closer : Char)
        (ending : List Char), d ∈ scan t → d.fromPath? = some path →
      HasPath t d front opener path.toList closer ending → IsSpecifier opener path.toList closer := by
  intro single
  have read : firstForm? (Cursor.ofText twoImports) =
      some (.importFrom ⟨0, 38⟩ ⟨15, 35⟩, ⟨38, []⟩) := by decide +kernel
  have given : (between (Cursor.ofText twoImports) (.importFrom ⟨0, 38⟩ ⟨15, 35⟩) ⟨38, []⟩).fromPath? =
      some "x'; import b from 'y" := by decide +kernel
  have stands : HasPath twoImports
      (between (Cursor.ofText twoImports) (.importFrom ⟨0, 38⟩ ⟨15, 35⟩) ⟨38, []⟩)
      "import a from ".toList '\'' "x'; import b from 'y".toList '\'' ";\n".toList :=
    ⟨by decide +kernel, by decide +kernel⟩
  have specifier := single _ _ _ _ _ _ _ (mem_scan_of_firstForm? read) given stands
  exact absurd specifier.2.1 (by decide)

end SourceSpecs.Declaration
