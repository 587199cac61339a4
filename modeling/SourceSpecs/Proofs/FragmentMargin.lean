import SourceSpecs.Proofs.BatchedHeaders
import SourceSpecs.Proofs.CommonIndent
import SourceSpecs.Proofs.Projection
/-!
Fragments have no indent of their own. A declaration begins with a mark at the start of a line, and so
does the text of all closed headers, so cutting the indent off them a second time changes nothing.
-/
namespace SourceSpecs.Declaration

open Text Syntax Extraction

variable {t : List Char} {d : Declaration}

theorem dedent_of_begins {v : List Char} {x : Char} (not_blank : isBlank x = false) :
    dedent (x :: v) = x :: v :=
  dedent_eq_self (u := []) rfl (Or.inl rfl) not_blank

theorem begins_of_scan (scanned : d ∈ scan t) :
    ∃ x v, d.text.toList = x :: v ∧ isBlank x = false := by
  obtain ⟨x, v, parts, not_blank, _⟩ := ((tiled_scan t).piece d scanned).2.begins
  exact ⟨x, v, parts, not_blank⟩

theorem dedent_fragment (scanned : d ∈ scan t) : dedent d.text.toList = d.text.toList := by
  obtain ⟨x, v, parts, not_blank⟩ := begins_of_scan scanned
  rw [parts]
  exact dedent_of_begins not_blank

theorem closeHeader_begins (scanned : d ∈ scan t) :
    ∃ x v, closeHeader d = x :: v ∧ isBlank x = false := by
  obtain ⟨x, v, parts, not_blank⟩ := begins_of_scan scanned
  have alone : trimEnd [x] = [x] := by simp [trimEnd, not_blank]
  obtain ⟨u, trimmed⟩ := trimEnd_append [x] v alone
  refine ⟨x, u ++ ['\x7d', '\n'], ?_, not_blank⟩
  rw [closeHeader, parts, ← List.singleton_append, trimmed]
  rfl

/-- Headers keep their place at the margin when they are closed and joined. -/
theorem dedent_signatures (t : List Char) : dedent (signatures (scan t)) = signatures (scan t) := by
  have scanned : ∀ d ∈ headers t, d ∈ scan t := fun d member => List.mem_of_mem_filter member
  rw [signatures_scan]
  cases found : headers t with
  | nil => decide
  | cons d ds =>
    obtain ⟨x, v, closed, not_blank⟩ := closeHeader_begins (scanned d (found ▸ List.mem_cons_self))
    rw [List.map_cons, List.flatten_cons, closed]
    exact dedent_of_begins not_blank

/-- Cutting the indent off a second time makes no difference to what is read: not for the source as
    a whole, not for a declaration scanned from it, and not for its closed headers. The headers are
    read alike with the indent cut off and without, and the names of a declaration are those of its
    own text. -/
theorem dedent_again (source : String) :
    extract (String.ofList (dedent source.toList)) = extract source ∧
    (∀ d ∈ scan (dedent source.toList), dedent d.text.toList = d.text.toList ∧
      customTypes? d.text = (parse? d.text.toList).map (Tree.customTypes d.text.toList)) ∧
    let buffer := signatures (scan (dedent source.toList))
    dedent buffer = buffer ∧ functionSpecsOf (String.ofList buffer) = functionSpecs buffer := by
  refine ⟨?_, ?_, dedent_signatures _, ?_⟩
  · rw [extract, extract, String.toList_ofList, dedent_dedent]
  · intro d scanned
    have same := dedent_fragment scanned
    refine ⟨same, ?_⟩
    rw [customTypes?, same]
  · rw [functionSpecsOf, String.toList_ofList, dedent_signatures]

def interfaceAndFunction : List Block :=
  [.interface true "Key".toList "\n  id: Id;".toList, .function "load".toList "key: Key".toList none,
    .filler "\x7d".toList]

theorem dedent_interfaceAndFunction :
    let source := String.ofList (Block.render interfaceAndFunction)
    ∃ d ∈ scan (dedent source.toList), d.text = "export interface Key \x7b\n  id: Id;\n\x7d\n" ∧
      dedent d.text.toList = d.text.toList ∧
      functionSpecsOf (String.ofList (signatures (scan (dedent source.toList)))) =
        .ok [⟨"load", [⟨"key", some "Key", none⟩], "void", ["Key"]⟩] := by
  intro source
  have scanned := scan_dedent_render interfaceAndFunction (by decide +kernel) List.mem_cons_self rfl
  have members : ⟨0, "export interface Key \x7b\n  id: Id;\n\x7d\n", .interface "Key" true⟩ ∈
      scan (dedent source.toList) := by
    rw [scanned]
    decide +kernel
  obtain ⟨_, fragments, _, read⟩ := dedent_again source
  refine ⟨_, members, rfl, (fragments _ members).1, ?_⟩
  rw [read, scanned]
  decide +kernel

end SourceSpecs.Declaration
