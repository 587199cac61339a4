import SourceSpecs.Proofs.AliasBody
import SourceSpecs.Proofs.FileReading
import SourceSpecs.Proofs.Margin
/-!
The same source read from a file and taken as a text. The line endings of a file are folded before
it is scanned, those of a text are not. Without a carriage return the two agree, and where every
line feed stands behind a blank nothing is found in the text.
-/
namespace SourceSpecs.Text

/-- No line feed of the text stands behind a mark. So it is where lines end in `\r\n` or in `\r`. -/
def BlankEnds (t : List Char) : Prop :=
  ∀ line ∈ (lines t).dropLast, ∀ x ∈ line.getLast?, isBlank x = true

instance : DecidablePred BlankEnds := fun t =>
  have (line : List Char) : Decidable (∀ x ∈ line.getLast?, isBlank x = true) :=
    Option.decidableForallMem line.getLast?
  List.decidableBAll _ (lines t).dropLast

theorem BlankEnds.behind {t a b : List Char} {x : Char} (blank : BlankEnds t)
    (parts : t = a ++ [x] ++ '\n' :: b) : isBlank x = true := by
  by_cases feed : x = '\n'
  · rw [feed]
    decide
  · obtain ⟨line, member, last⟩ := exists_piece_of_last feed a
    refine blank line ?_ x last
    rw [lines, parts, pieces_append, List.dropLast_append_of_ne_nil (pieces_ne_nil '\n' b)]
    exact List.mem_append_left _ member

theorem BlankEnds.dedent {t : List Char} (blank : BlankEnds t) : BlankEnds (dedent t) := by
  obtain ⟨cut, suffix, cut_eq⟩ := exists_cut (lines t)
  intro line member x last
  rw [lines_dedent, cut_eq, ← List.map_dropLast] at member
  obtain ⟨whole, found, rfl⟩ := List.mem_map.1 member
  obtain ⟨front, parts⟩ := suffix whole
  refine blank whole found x ?_
  rw [← parts, List.getLast?_append, last]
  rfl

end SourceSpecs.Text

namespace SourceSpecs.Declaration

open Text

def EndsMarked (w : List Char) : Prop := ∃ v x, w = v ++ [x] ++ ['\n'] ∧ isBlank x = false

theorem EndsMarked.behind {w : List Char} (h : EndsMarked w) (u : List Char) :
    EndsMarked (u ++ w) := by
  obtain ⟨v, x, rfl, marked⟩ := h
  exact ⟨u ++ v, x, by simp, marked⟩

theorem endsMarked_semicolon {x : Char} {e : List Char} (marked : isBlank x = false)
    (ends : e ∈ [maybe (exactly ";"), exactly "\n"].prod) : EndsMarked ([x] ++ e) := by
  rw [List.prod_cons, List.prod_singleton] at ends
  rcases mem_semicolon_break.1 ends with rfl | rfl
  · exact ⟨[], x, rfl, marked⟩
  · exact ⟨[x], ';', rfl, by decide⟩

theorem endsMarked_of_drop {f : Form} {w : List Char} (n : Nat)
    (last : ∀ e ∈ (f.parts.drop n).prod, EndsMarked e) (written : w ∈ f.written) :
    EndsMarked w := by
  rw [Form.written, ← List.take_append_drop n f.parts, List.prod_append] at written
  obtain ⟨u, _, e, ends, rfl⟩ := Language.mem_mul.1 written
  exact (last e ends).behind u

theorem endsMarked_of_written {f : Form} {w : List Char} (written : w ∈ f.written) :
    EndsMarked w := by
  cases f with
  | function =>
    refine endsMarked_of_drop 12 ?_ written
    rintro _ ⟨_, rfl, _, rfl, rfl⟩
    exact ⟨[], '\x7b', rfl, by decide⟩
  | interface =>
    refine endsMarked_of_drop 7 ?_ written
    rintro _ ⟨_, rfl, _, rfl, rfl⟩
    exact ⟨['\n'], '\x7d', rfl, by decide⟩
  | typeAlias =>
    refine endsMarked_of_drop 8 ?_ written
    rintro _ ⟨_, rfl, _, rfl, rfl⟩
    exact ⟨[], ';', rfl, by decide⟩
  | importFrom =>
    refine endsMarked_of_drop 7 ?_ written
    rintro _ ⟨_, ⟨x, quote, rfl⟩, e, ends, rfl⟩
    exact endsMarked_semicolon (not_isBlank_of_isQuote quote) ends
  | require =>
    refine endsMarked_of_drop 8 ?_ written
    rintro _ ⟨_, rfl, e, ends, rfl⟩
    exact endsMarked_semicolon (by decide) ends

theorem scan_of_blankEnds {t : List Char} (blank : BlankEnds t) : scan t = [] := by
  rw [List.eq_nil_iff_forall_not_mem]
  intro d member
  obtain ⟨parts, f, _, written⟩ := ((tiled_scan t).piece d member).2.text
  obtain ⟨v, x, text, marked⟩ := endsMarked_of_written written
  have whole : t = t.take d.offset ++ v ++ [x] ++ '\n' :: t.drop d.stop := by
    conv_lhs => rw [← List.take_append_drop d.offset t, parts, text]
    simp
  rw [blank.behind whole] at marked
  cases marked

end SourceSpecs.Declaration

namespace SourceSpecs.FileReport

open Text Declaration Extraction

def definitions (contents : Contents) : List String :=
  contents.types.map TypeSpec.definition ++ contents.imports.map ImportSpec.definition

theorem definition_of_scan {t : List Char} {contents : Contents} {text : String}
    (result : (ofDeclarations (scan t)).result = .ok contents) (member : text ∈ definitions contents) :
    ∃ d ∈ scan t, d.text = text := by
  rw [result_ofDeclarations] at result
  cases specs : functionSpecs (signatures (scan t)) with
  | error e =>
    rw [specs] at result
    cases result
  | ok functions =>
    rw [specs] at result
    obtain rfl := Except.ok.inj result
    rcases List.mem_append.1 member with inTypes | inImports
    · obtain ⟨spec, found, rfl⟩ := List.mem_map.1 inTypes
      obtain ⟨d, scanned, made⟩ := List.mem_filterMap.1 found
      refine ⟨d, scanned, ?_⟩
      rw [typeSpec?] at made
      split at made <;> cases made <;> rfl
    · obtain ⟨spec, found, rfl⟩ := List.mem_map.1 inImports
      obtain ⟨d, scanned, made⟩ := List.mem_filterMap.1 found
      refine ⟨d, scanned, ?_⟩
      rw [importSpec?] at made
      split at made <;> cases made <;> rfl

theorem definition_subset {source text : String} {contents : Contents}
    (result : (extract source).result = .ok contents) (member : text ∈ definitions contents) :
    text.toList ⊆ source.toList := by
  obtain ⟨d, scanned, rfl⟩ := definition_of_scan result member
  have piece := ((tiled_scan (dedent source.toList)).piece d scanned).2.text.1
  intro x inside
  refine (dedent_sublist source.toList).subset (List.mem_of_mem_drop (i := d.offset) ?_)
  rw [piece]
  exact List.mem_append_left _ inside

section Agreement

variable {w : Workspace} {path : String} {project : Option String} {limit : Int} {place : Place}
  {u : List Char}

/-- The file and the text are reported alike, or both fail. -/
def AgreesWithText (w : Workspace) (path : String) (project : Option String) (limit : Int)
    (place : Place) (u : List Char) : Prop :=
  ofPath w path project limit =
    ((extract (String.ofList u)).result.map (read place)).mapError .extraction

theorem outcome_inj {r r' : Except ExtractionError Contents}
    (same : (r.map (read place)).mapError Failure.extraction =
      (r'.map (read place)).mapError Failure.extraction) : r = r' := by
  cases r with
  | error e =>
    cases r' with
    | error e' => exact congrArg _ (Failure.extraction.inj (Except.error.inj same))
    | ok contents => cases same
  | ok contents =>
    cases r' with
    | error e => cases same
    | ok contents' => exact congrArg _ (FileReport.read.inj (Except.ok.inj same)).2

/-- A file agrees with a text if and only if the text reads as it does with its endings folded. -/
theorem agreesWithText_of_resolved (resolved : w.locateSource path project = .ok place)
    (file : Holds w place (encodeUtf8 u)) (source : IsSource place)
    (fits : (encodeUtf8 u).length ≤ limit) :
    AgreesWithText w path project limit place u ↔
      (extract (String.ofList (foldEndings u))).result = (extract (String.ofList u)).result := by
  have stores : Stores (encodeUtf8 u) (foldEndings u) :=
    ⟨u, decodes_encodeUtf8 u, folds_iff.2 rfl⟩
  rw [AgreesWithText, ofPath_of_stores resolved file source fits stores]
  constructor
  · exact outcome_inj
  · intro same
    rw [same]

theorem extract_of_blankEnds (blank : BlankEnds u) :
    (extract (String.ofList u)).result = .ok {} := by
  rw [extract, String.toList_ofList, scan_of_blankEnds blank.dedent, result_ofDeclarations]
  exact congrArg _ Block.functionSpecs_nil

/-- A file and a text agree if and only if the text reads as it does with its line endings folded.
    Without a carriage return they do. Where every line feed stands behind a blank, nothing is found
    in the text, and they agree only if nothing is found in the file. Where they agree, no definition
    found in the text holds a carriage return. -/
theorem agreesWithText_iff (resolved : w.locateSource path project = .ok place)
    (file : Holds w place (encodeUtf8 u)) (source : IsSource place)
    (fits : (encodeUtf8 u).length ≤ limit) :
    (AgreesWithText w path project limit place u ↔
      (extract (String.ofList (foldEndings u))).result = (extract (String.ofList u)).result) ∧
    ('\r' ∉ u → AgreesWithText w path project limit place u) ∧
    (BlankEnds u → (extract (String.ofList u)).result = .ok {} ∧
      (AgreesWithText w path project limit place u ↔
        (extract (String.ofList (foldEndings u))).result = .ok {})) ∧
    (AgreesWithText w path project limit place u → ∀ contents,
      (extract (String.ofList u)).result = .ok contents →
        ∀ text ∈ definitions contents, '\r' ∉ text.toList) := by
  have agree := agreesWithText_of_resolved resolved file source fits
  refine ⟨agree, ?_, ?_, ?_⟩
  · intro free
    rw [agree, foldEndings_eq_self free]
  · intro blank
    have nothing := extract_of_blankEnds blank
    exact ⟨nothing, by rw [agree, nothing]⟩
  · intro agrees contents result text member inside
    have folded := (agree.1 agrees).trans result
    have within := definition_subset folded member inside
    rw [String.toList_ofList] at within
    exact foldEndings_free u within

end Agreement

theorem agreesWithText_lineFile :
    AgreesWithText (lineFile ['\n']) "/a.ts" none 12 ["a.ts"] typeLine := by
  have file : Holds (lineFile ['\n']) ["a.ts"] (encodeUtf8 typeLine) := rfl
  have fits : (encodeUtf8 typeLine).length ≤ (12 : Int) := by decide
  have agree := agreesWithText_iff (lineFile_resolved ['\n']) file isSource_lineFile fits
  exact agree.2.1 (by decide)

/-- A line that ends in `\r\n` declares a type in a file, and nothing in a text. -/
theorem crlf_file_disagrees :
    ¬ ∀ (w : Workspace) (path : String) (project : Option String) (limit : Int) (place : Place)
        (u : List Char), w.locateSource path project = .ok place → IsSource place →
      Holds w place (encodeUtf8 u) → (encodeUtf8 u).length ≤ limit →
      AgreesWithText w path project limit place u := by
  intro agree
  set u := withEnding ['\r', '\n'] typeLine with text
  have fits : (encodeUtf8 u).length ≤ (13 : Int) := by decide
  have agrees := agree (lineFile ['\r', '\n']) "/a.ts" none 13 ["a.ts"] u
    (lineFile_resolved ['\r', '\n']) isSource_lineFile rfl fits
  have same := (agreesWithText_of_resolved (lineFile_resolved ['\r', '\n']) rfl isSource_lineFile
    fits).1 agrees
  have folded : foldEndings u =
      (Block.typeAlias false "A".toList "B".toList).text := by decide
  have blank : BlankEnds u := by decide +kernel
  rw [extract_of_blankEnds blank, folded,
    (Block.result_whole_iff false "B".toList (by decide +kernel)).2 (by decide)] at same
  cases same

end SourceSpecs.FileReport
