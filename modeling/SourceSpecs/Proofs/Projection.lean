import SourceSpecs.Proofs.Account
import SourceSpecs.Proofs.Relocation
/-!
The declarations of a text are all that is read of it. Kept without the text around them, they are
scanned again as they were, and the same specs are extracted.
-/
namespace SourceSpecs

namespace Declaration

open Text

def texts (ds : List Declaration) : List Char := ds.flatMap fun d => d.text.toList

/-- A text without what its declarations leave out. -/
def kept (t : List Char) : List Char := texts (scan t)

def packed (o : Nat) : List Declaration → List Declaration
  | [] => []
  | d :: ds => { d with offset := o } :: packed (o + d.text.toList.length) ds

def content (d : Declaration) : Kind × String × Option String × Bool × Option String :=
  (d.kind, d.text, d.name?, d.isExported, d.fromPath?)

/-- Neither a blank nor a brace begins a declaration. -/
theorem written_begins (f : Form) :
    BeginsOutside (fun x => isBlank x || x == '\x7b') f.written := by
  have marked {p : Char → Bool} {L M : Language Char} (h : BeginsOutside p L)
      (k : BeginsOutside p M) : BeginsOutside p (maybe L * M) := by
    intro w member
    rw [maybe, add_mul, one_mul] at member
    rcases member with plain | exported
    · exact k w plain
    · exact beginsOutside_mul h M w exported
  have mark : BeginsOutside (fun x => isBlank x || x == '\x7b')
      (exactly "export" * runSome isBlank) :=
    beginsOutside_mul (beginsOutside_exactly ⟨'e', rfl, by decide⟩) _
  simp only [Form.written]
  cases f with
  | function => exact beginsOutside_mul (beginsOutside_exactly ⟨'e', rfl, by decide⟩) _
  | interface =>
    exact marked mark (beginsOutside_mul (beginsOutside_exactly ⟨'i', rfl, by decide⟩) _)
  | typeAlias =>
    exact marked mark (beginsOutside_mul (beginsOutside_exactly ⟨'t', rfl, by decide⟩) _)
  | importFrom => exact beginsOutside_mul (beginsOutside_exactly ⟨'i', rfl, by decide⟩) _
  | require => exact beginsOutside_mul (beginsOutside_exactly ⟨'c', rfl, by decide⟩) _

section Pieces

variable {t : List Char} {d : Declaration} {ds : List Declaration}

theorem Piece.begins (h : Piece t d) :
    ∃ x v, d.text.toList = x :: v ∧ isBlank x = false ∧ x ≠ '\x7b' := by
  obtain ⟨_, f, _, member⟩ := h.text
  obtain ⟨x, first, outside⟩ := written_begins f _ member
  obtain ⟨v, parts⟩ := List.head?_eq_some_iff.1 first
  rw [Bool.or_eq_false_iff] at outside
  exact ⟨x, v, parts, outside.1, by simpa using outside.2⟩

theorem noBraceNext_texts (pieces : ∀ d ∈ ds, Piece t d) : Block.NoBraceNext (texts ds) := by
  cases ds with
  | nil => simp [Block.NoBraceNext, texts]
  | cons d ds =>
    obtain ⟨x, v, parts, not_blank, not_brace⟩ := (pieces d List.mem_cons_self).begins
    rw [Block.NoBraceNext, texts, List.flatMap_cons, parts, List.cons_append,
      List.dropWhile_cons_of_neg (by simp [not_blank]), List.head?_cons]
    intro same
    exact not_brace (Option.some.inj same)

/-- A declaration is read again wherever its text stands, if no brace comes next behind it. -/
theorem Piece.read_again (h : Piece t d) {rest : List Char} (free : Block.NoBraceNext rest)
    (o : Nat) :
    scanFrom true ⟨o, d.text.toList ++ rest⟩ =
      { d with offset := o } :: scanFrom true ⟨o + d.text.toList.length, rest⟩ := by
  obtain ⟨capture, read, same⟩ := h.read
  have here : cursorAt t d.offset = ⟨d.offset, d.text.toList ++ t.drop d.stop⟩ := by
    rw [cursorAt, h.text.1]
  rw [here] at read same
  let copies : Copies := ⟨d.text.toList, d.offset, o, t.drop d.stop, rest⟩
  obtain ⟨capture', read', same_shape⟩ := copies.firstForm?_copy free read
  have moved : between ⟨o, d.text.toList ++ rest⟩ capture' copies.stop' =
      { d with offset := o } := by
    have shape : d.shape = shapeOf ⟨d.offset, d.text.toList, [capture]⟩ capture := by
      rw [congrArg Declaration.shape same, between]
      simp [cursorAt, Declaration.stop]
    rw [shape.trans same_shape, between]
    simp [copies, Copies.stop']
  rw [scanFrom_found read', moved]
  rfl

theorem scanFrom_texts (pieces : ∀ d ∈ ds, Piece t d) (o : Nat) :
    scanFrom true ⟨o, texts ds⟩ = packed o ds := by
  induction ds generalizing o with
  | nil => exact scanFrom_end true rfl
  | cons d ds ih =>
    have behind : ∀ e ∈ ds, Piece t e := fun e member => pieces e (List.mem_cons_of_mem d member)
    have again := (pieces d List.mem_cons_self).read_again (noBraceNext_texts behind) o
    rw [ih behind] at again
    exact again

end Pieces

theorem scan_kept (t : List Char) : scan (kept t) = packed 0 (scan t) :=
  scanFrom_texts (fun d member => ((tiled_scan t).piece d member).2) 0

theorem content_packed (o : Nat) (ds : List Declaration) :
    (packed o ds).map content = ds.map content := by
  induction ds generalizing o with
  | nil => rfl
  | cons d ds ih =>
    rw [packed, List.map_cons, ih, List.map_cons]
    rfl

theorem dedent_kept (t : List Char) : dedent (kept t) = kept t := by
  have pieces : ∀ d ∈ scan t, Piece t d := fun d member => ((tiled_scan t).piece d member).2
  rw [kept]
  cases found : scan t with
  | nil => decide
  | cons d ds =>
    obtain ⟨x, v, parts, not_blank, _⟩ := (pieces d (found ▸ List.mem_cons_self)).begins
    refine dedent_eq_self (u := []) (v := v ++ texts ds) ?_ (Or.inl rfl) not_blank
    rw [texts, List.flatMap_cons, parts]
    rfl

end Declaration

namespace Extraction

open Declaration Text

section Packed

variable {α : Type} (o : Nat) (ds : List Declaration)

theorem filterMap_packed {f : Declaration → Option α}
    (blind : ∀ o d, f { d with offset := o } = f d) : (packed o ds).filterMap f = ds.filterMap f := by
  induction ds generalizing o with
  | nil => rfl
  | cons d ds ih => simp only [packed, List.filterMap_cons, blind, ih]

theorem signatures_packed : signatures (packed o ds) = signatures ds := by
  have of_content (ds : List Declaration) :
      (ds.filter (·.kind == .function)).map Declaration.text =
        ((ds.map content).filter (·.1 == .function)).map (·.2.1) := by
    rw [List.filter_map, List.map_map]
    rfl
  apply signatures_congr
  rw [of_content, of_content, content_packed]

theorem result_packed : (ofDeclarations (packed o ds)).result = (ofDeclarations ds).result := by
  have types := filterMap_packed (f := typeSpec?) o ds fun _ _ => rfl
  have imports := filterMap_packed (f := importSpec?) o ds fun _ _ => rfl
  simp only [ofDeclarations, signatures_packed, types, imports]
  cases functionSpecs (signatures ds) <;> rfl

end Packed

/-- Extraction is a projection: what is left out of a text has no part in what is read of it. -/
theorem extract_kept (t : List Char) (source : String) :
    scan (kept t) = packed 0 (scan t) ∧
    (scan (kept t)).map content = (scan t).map content ∧
    (extract (String.ofList (kept (dedent source.toList)))).result = (extract source).result := by
  refine ⟨scan_kept t, ?_, ?_⟩
  · rw [scan_kept, content_packed]
  · rw [extract, String.toList_ofList, dedent_kept, scan_kept, result_packed, extract]

end Extraction

end SourceSpecs
