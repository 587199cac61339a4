import SourceSpecs.Proofs.Tiling
/-!
When a function header is reported. The header is the preferred form, so it is reported wherever
the scan stops at it; it is lost only in the middle of an earlier declaration that runs past it.
-/
namespace SourceSpecs.Declaration

theorem kind_of_matchesAt {t : List Char} {d : Declaration} (piece : Piece t d)
    (header : Form.function.MatchesAt t d.offset) : d.kind = .function := by
  obtain ⟨⟨capture, e⟩, read⟩ := Option.isSome_iff_exists.1 (matchesAt_iff.1 header).2
  have first : firstForm? (cursorAt t d.offset) = some (capture, e) := by
    rw [firstForm?, Form.all, List.findSome?_cons, read]
  obtain ⟨capture', read', same⟩ := piece.read
  obtain ⟨rfl, _⟩ := Prod.mk.inj (Option.some.inj (read'.symm.trans first))
  rw [kind, congrArg Declaration.shape same]
  exact at?_kind read _

theorem header_reported {t : List Char} {p : Nat} (header : Form.function.MatchesAt t p)
    (uncovered : ∀ d ∈ scan t, ¬ (d.offset < p ∧ p < d.stop)) :
    ∃ d ∈ scan t, d.kind = .function ∧ d.offset = p := by
  have tiled := tiled_scan t
  by_contra missing
  refine tiled.free (Nat.zero_le p) (fun d member inside => ?_) .function header
  obtain rfl : d.offset = p := by
    have := uncovered d member
    omega
  exact missing ⟨d, member, kind_of_matchesAt (tiled.piece d member).2 header, rfl⟩

theorem not_covered {t : List Char} {d e : Declaration} (reported : d ∈ scan t)
    (other : e ∈ scan t) : ¬ (e.offset < d.offset ∧ d.offset < e.stop) := by
  have tiled := tiled_scan t
  have := (tiled.piece d reported).2.nonempty
  rintro ⟨before, behind⟩
  rcases tiled.apart reported other with rfl | after | ahead
  · omega
  · unfold stop at *
    omega
  · omega

/-- A header is reported unless an earlier declaration begins before it and runs past its start. -/
theorem header_reported_iff (t : List Char) (p : Nat) (header : Form.function.MatchesAt t p) :
    (∃ d ∈ scan t, d.kind = .function ∧ d.offset = p) ↔
      ∀ d ∈ scan t, ¬ (d.offset < p ∧ p < d.stop) := by
  constructor
  · rintro ⟨d, member, _, rfl⟩ e member'
    exact not_covered member member'
  · exact header_reported header

theorem header_reported_of_closed {t : List Char} {p : Nat} (header : Form.function.MatchesAt t p)
    (closed : ∀ q < p, LineStart t q → ∀ r ∈ firstForm? (cursorAt t q), r.2.offset ≤ p) :
    ∃ d ∈ scan t, d.kind = .function ∧ d.offset = p := by
  refine header_reported header fun d member covers => ?_
  have piece := ((tiled_scan t).piece d member).2
  obtain ⟨capture, read, _⟩ := piece.read
  have : d.stop ≤ p := closed d.offset covers.1 piece.starts _ read
  omega

def constBeforeHeader : List Char :=
  "const x = 1;\nexport function f() \x7b\nconst y = require('a');\n\x7d\n".toList

theorem header_in_constBeforeHeader : Form.function.MatchesAt constBeforeHeader 13 :=
  matchesAt_iff.2 ⟨Or.inr ⟨by decide, by decide⟩, by decide +kernel⟩

theorem header_in_constBeforeHeader_iff :
    Form.function.MatchesAt constBeforeHeader 13 ∧
      ((∃ d ∈ scan constBeforeHeader, d.kind = .function ∧ d.offset = 13) ↔
        ∀ d ∈ scan constBeforeHeader, ¬ (d.offset < 13 ∧ 13 < d.stop)) :=
  ⟨header_in_constBeforeHeader,
    header_reported_iff constBeforeHeader 13 header_in_constBeforeHeader⟩

/-- The constant is read on up to the call, over the header. -/
theorem header_not_reported :
    ¬ ∀ (t : List Char) (p : Nat), Form.function.MatchesAt t p →
      ∃ d ∈ scan t, d.kind = .function ∧ d.offset = p := by
  intro reported
  obtain ⟨d, member, _, starts⟩ := reported _ _ header_in_constBeforeHeader
  have read : firstForm? (Cursor.ofText constBeforeHeader) =
      some (.require ⟨0, 59⟩ ⟨54, 55⟩, ⟨59, ['\x7d', '\n']⟩) := by decide +kernel
  have covers := scanFrom_found read
  rw [← scan_eq_scanFrom] at covers
  refine not_covered member (covers ▸ List.mem_cons_self) ⟨?_, ?_⟩
  · rw [starts]
    decide
  · rw [starts]
    decide +kernel

end SourceSpecs.Declaration
