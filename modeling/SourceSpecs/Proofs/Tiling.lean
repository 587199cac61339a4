import SourceSpecs.Proofs.Scanning
/-!
The declarations of a text tile it from left to right. Each of them is a slice that starts a line
and ends one, and between them no form can be read at the start of any line.
-/
namespace SourceSpecs

/-- The offset behind a declaration. -/
def Declaration.stop (d : Declaration) : Nat := d.offset + d.text.toList.length

namespace Declaration

def LineStart (t : List Char) (p : Nat) : Prop := p = 0 ∨ 0 < p ∧ t[p - 1]? = some '\n'

/-- A line starts at the offset, and some text of the form comes next. -/
def Form.MatchesAt (f : Form) (t : List Char) (p : Nat) : Prop :=
  LineStart t p ∧ ∃ w ∈ f.written, w <+: t.drop p

def cursorAt (t : List Char) (p : Nat) : Cursor := ⟨p, t.drop p⟩

/-- The declaration is what the first form reads at its offset, at the start of a line. -/
structure Piece (t : List Char) (d : Declaration) : Prop where
  starts : LineStart t d.offset
  read : ∃ capture, firstForm? (cursorAt t d.offset) = some (capture, cursorAt t d.stop) ∧
    d = between (cursorAt t d.offset) capture (cursorAt t d.stop)

/-- From the offset on the declarations tile the text, with no form in the gaps. -/
inductive Tiled (t : List Char) : Nat → List Declaration → Prop where
  | last {o : Nat} (free : ∀ p, o ≤ p → ∀ f : Form, ¬ f.MatchesAt t p) : Tiled t o []
  | next {o : Nat} {d : Declaration} {ds : List Declaration} (le : o ≤ d.offset)
      (free : ∀ p, o ≤ p → p < d.offset → ∀ f : Form, ¬ f.MatchesAt t p) (piece : Piece t d)
      (rest : Tiled t d.stop ds) : Tiled t o (d :: ds)

theorem takes_at {L : Language Char} {t w : List Char} {p : Nat} (member : w ∈ L)
    (h : w <+: t.drop p) : Takes L (cursorAt t p) ⟨p + w.length, t.drop (p + w.length)⟩ := by
  obtain ⟨v, e⟩ := h
  refine ⟨w, member, ?_, rfl⟩
  rw [← List.drop_drop, ← e, List.drop_left]
  exact e.symm

theorem not_matchesAt_of_firstForm? {t : List Char} {p : Nat}
    (none_here : firstForm? (cursorAt t p) = none) (f : Form) : ¬ f.MatchesAt t p := by
  rintro ⟨_, w, member, h⟩
  exact firstForm?_eq_none_iff.1 none_here f _ (takes_at member h)

theorem not_matchesAt_end {t : List Char} {p : Nat} (beyond : t.length ≤ p) (f : Form) :
    ¬ f.MatchesAt t p := by
  rintro ⟨_, w, member, h⟩
  rw [List.drop_eq_nil_of_le beyond] at h
  have ends := written_ends_line member
  rw [List.prefix_nil.1 h] at ends
  simp at ends

theorem tiled_widen {t : List Char} {o : Nat} {ds : List Declaration}
    (free : ∀ f : Form, ¬ f.MatchesAt t o) (h : Tiled t (o + 1) ds) : Tiled t o ds := by
  cases h with
  | last free' =>
    refine .last fun p le => ?_
    rcases Nat.eq_or_lt_of_le le with rfl | less
    · exact free
    · exact free' p less
  | next le free' piece rest =>
    refine .next (by omega) (fun p le' less => ?_) piece rest
    rcases Nat.eq_or_lt_of_le le' with rfl | less'
    · exact free
    · exact free' p less' less

theorem lineStart_succ_iff {t : List Char} {p : Nat} :
    LineStart t (p + 1) ↔ t[p]? = some '\n' := by
  simp [LineStart]

/-- Wherever the scan stands, the rest of it tiles the rest of the text. -/
theorem tiled_scanFrom (t : List Char) {p : Nat} {lineStart : Bool} (le : p ≤ t.length)
    (starts : lineStart = true ↔ LineStart t p) :
    Tiled t p (scanFrom lineStart (cursorAt t p)) := by
  induction size : t.length - p using Nat.strongRecOn generalizing p lineStart with
  | ind n ih =>
    by_cases pass : lineStart = true → firstForm? (cursorAt t p) = none
    · have free : ∀ f : Form, ¬ f.MatchesAt t p := by
        intro f h
        exact not_matchesAt_of_firstForm? (pass (starts.2 h.1)) f h
      cases e : t.drop p with
      | nil =>
        rw [scanFrom_end lineStart (by simpa [cursorAt] using e)]
        refine .last fun q le' f => not_matchesAt_end ?_ f
        have := List.drop_eq_nil_iff.1 e
        omega
      | cons x rest =>
        have less : p < t.length := by
          by_contra beyond
          simp [List.drop_eq_nil_of_le (Nat.le_of_not_lt beyond)] at e
        have x_here : t[p]? = some x := by
          rw [← List.head?_drop, e, List.head?_cons]
        have tail : rest = t.drop (p + 1) := by
          rw [← List.drop_drop, e, List.drop_one, List.tail_cons]
        rw [scanFrom_pass pass (by simpa [cursorAt] using e), tail]
        refine tiled_widen free (ih (t.length - (p + 1)) (by omega) less ?_ rfl)
        rw [lineStart_succ_iff, x_here]
        simp
    · simp only [Classical.not_imp] at pass
      obtain ⟨rfl, found⟩ := pass
      obtain ⟨⟨capture, d⟩, read⟩ := Option.ne_none_iff_exists'.1 found
      obtain ⟨w, reads, ends⟩ := reads_of_firstForm? read
      have nonempty : 0 < w.length := by cases w <;> simp_all
      have text := between_text reads capture
      have stop : (between (cursorAt t p) capture d).stop = p + w.length := by
        rw [Declaration.stop, text, String.toList_ofList]
        rfl
      have parts : t.drop p = w ++ d.rest := reads.1
      have bound : p + w.length ≤ t.length := by
        have := congrArg List.length parts
        simp only [List.length_drop, List.length_append] at this
        omega
      obtain rfl : d = cursorAt t (p + w.length) := by
        have rest : t.drop (p + w.length) = d.rest := by rw [← List.drop_drop, parts, List.drop_left]
        have offset := reads.2
        cases d
        simp_all [cursorAt]
      rw [scanFrom_found read]
      refine .next (Nat.le_refl p) (fun q le' less => absurd less (by simpa [between, cursorAt] using le'))
        ⟨starts.1 rfl, capture, ?_, ?_⟩ ?_
      · rw [stop]; exact read
      · rw [stop]; rfl
      · rw [stop]
        refine ih (t.length - (p + w.length)) (by omega) bound ?_ rfl
        refine iff_of_true rfl (Or.inr ⟨by omega, ?_⟩)
        rw [List.getLast?_eq_getElem?] at ends
        rw [show p + w.length - 1 = p + (w.length - 1) by omega, ← List.getElem?_drop, parts,
          List.getElem?_append_left (by omega), ends]

theorem tiled_scan (t : List Char) : Tiled t 0 (scan t) :=
  tiled_scanFrom t (Nat.zero_le _) (iff_of_true rfl (Or.inl rfl))

theorem Tiled.piece {t : List Char} {o : Nat} {ds : List Declaration} (h : Tiled t o ds) :
    ∀ d ∈ ds, o ≤ d.offset ∧ Piece t d := by
  induction h with
  | last => simp
  | next le _ piece rest ih =>
    intro e member
    rcases List.mem_cons.1 member with rfl | member
    · exact ⟨le, piece⟩
    · have := ih e member
      exact ⟨by have := this.1; unfold Declaration.stop at this; omega, this.2⟩

theorem Piece.text {t : List Char} {d : Declaration} (h : Piece t d) :
    t.drop d.offset = d.text.toList ++ t.drop d.stop ∧
      ∃ f : Form, d.kind = f.kind ∧ d.text.toList ∈ f.written := by
  obtain ⟨capture, read, same⟩ := h.read
  obtain ⟨f, form⟩ := exists_form_of_firstForm? read
  obtain ⟨w, member, reads⟩ : Takes f.written _ _ := ((finds_form f).best form).1
  have text : d.text.toList = w := by
    rw [congrArg Declaration.text same, between_text reads, String.toList_ofList]
  refine ⟨text ▸ reads.1, f, ?_, text ▸ member⟩
  rw [kind, congrArg Declaration.shape same]
  exact at?_kind form _

theorem matchesAt_iff {f : Form} {t : List Char} {p : Nat} :
    f.MatchesAt t p ↔ LineStart t p ∧ (f.at? (cursorAt t p)).isSome := by
  rw [at?_isSome_iff]
  refine and_congr_right fun _ => ⟨?_, ?_⟩
  · rintro ⟨w, member, h⟩
    exact ⟨_, takes_at member h⟩
  · rintro ⟨d, w, member, reads⟩
    exact ⟨w, member, d.rest, reads.1.symm⟩

def gapsFrom (t : List Char) (o : Nat) : List Declaration → List (List Char)
  | [] => [t.drop o]
  | d :: ds => (t.drop o).take (d.offset - o) :: gapsFrom t d.stop ds

/-- The stretches of a text that its declarations leave out. There is one more of them. -/
def gaps (t : List Char) : List (List Char) := gapsFrom t 0 (scan t)

/-- The gaps and the declarations by turns. -/
def weave : List (List Char) → List Declaration → List Char
  | gap :: gaps, d :: ds => gap ++ d.text.toList ++ weave gaps ds
  | gaps, _ => gaps.flatten

theorem Piece.nonempty {t : List Char} {d : Declaration} (h : Piece t d) :
    0 < d.text.toList.length := by
  obtain ⟨_, f, _, member⟩ := h.text
  have ends := written_ends_line member
  exact List.length_pos_iff.2 fun empty => by simp [empty] at ends

theorem Tiled.weave {t : List Char} {o : Nat} {ds : List Declaration} (h : Tiled t o ds) :
    weave (gapsFrom t o ds) ds = t.drop o := by
  induction h with
  | last => simp [gapsFrom, Declaration.weave]
  | @next o d ds le _ piece _ ih =>
    have behind : t.drop d.offset = (t.drop o).drop (d.offset - o) := by
      rw [List.drop_drop, show o + (d.offset - o) = d.offset by omega]
    rw [gapsFrom, Declaration.weave, ih, List.append_assoc, ← piece.text.1, behind,
      List.take_append_drop]

theorem Tiled.ordered {t : List Char} {o : Nat} {ds : List Declaration} (h : Tiled t o ds) :
    ds.Pairwise fun d e => d.offset < e.offset ∧ d.stop ≤ e.offset := by
  induction h with
  | last => exact List.Pairwise.nil
  | next _ _ piece rest ih =>
    refine List.Pairwise.cons (fun e member => ?_) ih
    have behind := (rest.piece e member).1
    have := piece.nonempty
    exact ⟨by unfold stop at behind; omega, behind⟩

theorem Tiled.apart {t : List Char} {o : Nat} {ds : List Declaration} (h : Tiled t o ds)
    {d e : Declaration} (left : d ∈ ds) (right : e ∈ ds) :
    d = e ∨ d.stop ≤ e.offset ∨ e.stop ≤ d.offset := by
  have ordered := List.pairwise_iff_getElem.1 h.ordered
  obtain ⟨i, i_less, rfl⟩ := List.getElem_of_mem left
  obtain ⟨j, j_less, rfl⟩ := List.getElem_of_mem right
  rcases Nat.lt_trichotomy i j with less | rfl | less
  · exact Or.inr (Or.inl (ordered i j i_less j_less less).2)
  · exact Or.inl rfl
  · exact Or.inr (Or.inr (ordered j i j_less i_less less).2)

theorem Tiled.free {t : List Char} {o : Nat} {ds : List Declaration} (h : Tiled t o ds) {p : Nat}
    (le : o ≤ p) (outside : ∀ d ∈ ds, ¬ (d.offset ≤ p ∧ p < d.stop)) (f : Form) :
    ¬ f.MatchesAt t p := by
  induction h with
  | last free => exact free p le f
  | @next o d ds _ free _ _ ih =>
    have here := outside d List.mem_cons_self
    by_cases before : p < d.offset
    · exact free p le before f
    · exact ih (by omega) fun e member => outside e (List.mem_cons_of_mem d member)

/-- The scan of any text is a leftmost tiling that loses nothing. -/
theorem scan_tiles (t : List Char) :
    (scan t).Pairwise (fun d e => d.offset < e.offset ∧ d.stop ≤ e.offset) ∧
    (∀ d ∈ scan t, d.offset < d.stop ∧ d.text.toList = (t.drop d.offset).take (d.stop - d.offset) ∧
      LineStart t d.offset ∧ d.text.toList.getLast? = some '\n') ∧
    weave (gaps t) (scan t) = t ∧
    ∀ p, (∀ d ∈ scan t, ¬ (d.offset ≤ p ∧ p < d.stop)) → ∀ f : Form, ¬ f.MatchesAt t p := by
  have tiled := tiled_scan t
  refine ⟨tiled.ordered, fun d member => ?_, tiled.weave, fun p => tiled.free (Nat.zero_le p)⟩
  have piece := (tiled.piece d member).2
  obtain ⟨parts, f, _, form⟩ := piece.text
  have size : d.stop - d.offset = d.text.toList.length := by unfold stop; omega
  refine ⟨?_, ?_, piece.starts, written_ends_line form⟩
  · have := piece.nonempty
    omega
  · rw [size, parts, List.take_left]

end Declaration

end SourceSpecs
