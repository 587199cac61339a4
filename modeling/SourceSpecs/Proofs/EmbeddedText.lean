import SourceSpecs.Proofs.EmbeddedToken
import SourceSpecs.Proofs.MovedTree
/-!
A text that stands among others, and two cursors that read it, one in the text alone and one in the
whole. Blanks, tokens and the ends of statements are the same for both.
-/
namespace SourceSpecs.Syntax

def Quiet (last : Bool) (c : Cursor) : Prop := ∃ d, skipGap c = ([], d) ∧ Beyond last d.rest

theorem skipGap_beyond {last : Bool} {c : Cursor} (h : Beyond last c.rest) :
    skipGap c = ([], c) := by
  obtain ⟨o, r⟩ := c
  rcases h with rfl | ⟨_, t, rfl⟩
  · rfl
  · change ((gap .blank o ('e' :: ("xport".toList ++ t))).1.map _, _) = _
    rw [gap_other (by decide), if_neg (by decide)]
    rfl

theorem skipGap_break {o : Nat} {t : List Char} {last : Bool} (h : Beyond last t) :
    skipGap ⟨o, '\n' :: t⟩ = ([], ⟨o + 1, t⟩) := by
  have := skipGap_beyond (c := ⟨o + 1, t⟩) h
  unfold skipGap at this ⊢
  simp only at this ⊢
  rwa [gap_other (by decide), if_pos (by decide)]

theorem quiet_of_beyond {last : Bool} {c : Cursor} (h : Beyond last c.rest) : Quiet last c :=
  ⟨c, skipGap_beyond h, h⟩

/-- A text among others. What stands behind it is nothing, or it begins with an export. -/
structure Setting where
  before : List Char
  text : List Char
  behind : List Char
  follows : Beyond false behind

namespace Setting

variable (s : Setting)

def whole : List Char := s.before ++ s.text ++ s.behind

def Echo (nodes nodes' : List Tree) : Prop := List.Forall₂ (Echoes s.text s.whole s.before.length) nodes nodes'

structure Moved (c c' : Cursor) : Prop where
  reaches : (Cursor.ofText s.text).Reaches c
  moved : c' = ⟨c.offset + s.before.length, c.rest ++ s.behind⟩

/-- Where the cursors stand, when the brackets in `around` are open around what is read. -/
def Stands (around : List Opening) : List Opening × Place → Cursor → Cursor → Prop
  | (l, .start), c, c' =>
    At around (l, .inside) c.rest ∧ Beyond false c.rest ∧ c = Cursor.ofText s.text ∧
      s.before ≠ [] ∧ c' = ⟨s.before.length - 1, '\n' :: (s.text ++ s.behind)⟩
  | (l, .inside), c, c' => At around (l, .inside) c.rest ∧ s.Moved c c'
  | (l, .template), c, c' => At around (l, .template) c.rest ∧ s.Moved c c'
  | (l, .border), c, c' => At around (l, .border) c.rest ∧ s.Moved c c'
  | (_, .beyond last), c, c' => Quiet last c ∧ Quiet last c'

variable {s} {c c' d d' : Cursor} {around l : List Opening}

theorem slice_move {x : Span} (bound : x.stop ≤ s.text.length) :
    x.slice s.text = (x.move s.before.length).slice s.whole := by
  have start : s.whole.drop (x.start + s.before.length) = (s.text ++ s.behind).drop x.start := by
    rw [whole, List.append_assoc, List.drop_append, List.drop_of_length_le (by omega),
      List.nil_append, Nat.add_sub_cancel]
  have beyond : x.stop - x.start - (s.text.drop x.start).length = 0 := by
    rw [List.length_drop]
    omega
  rw [Span.slice, Span.slice, Span.move, start, Nat.add_sub_add_right, List.drop_append,
    List.take_append, beyond, List.take_zero, List.append_nil]

theorem Moved.offset_add_length (h : s.Moved c c') : c.offset + c.rest.length = s.text.length := by
  obtain ⟨u, text, offset⟩ := h.reaches
  have := congrArg List.length text
  simp only [Cursor.ofText, List.length_append] at this offset
  omega

theorem Moved.further (h : s.Moved c c') (reaches : c.Reaches d) :
    s.Moved d ⟨d.offset + s.before.length, d.rest ++ s.behind⟩ := ⟨h.reaches.trans reaches, rfl⟩

theorem echo_leaf {k : Kind} {x : Span} (bound : x.stop ≤ s.text.length) :
    Echoes s.text s.whole s.before.length (.leaf k x) (.leaf k (x.move s.before.length)) :=
  .node (slice_move bound) .nil

theorem Moved.skipGap {o : List Opening} (h : s.Moved c c') (code : Held ⟨.code, 0, o⟩ c.rest) :
    ∃ comments comments' d d', Syntax.skipGap c = (comments, d) ∧ Syntax.skipGap c' = (comments', d') ∧
      s.Echo comments comments' ∧ s.Moved d d' ∧ Stop o d.rest := by
  obtain rfl := h.moved
  obtain ⟨comments, next, stop, reaches, bound⟩ :=
    gap_append (g := .blank) (y := .blank) (o := c.offset) s.before.length s.behind trivial code
  have further := h.further reaches
  refine ⟨_, _, _, _, rfl, rfl, ?_, ?_, stop⟩
  · rw [comments]
    have inside := further.offset_add_length
    rw [List.map_map, Echo, List.forall₂_map_left_iff, List.forall₂_map_right_iff,
      List.forall₂_same]
    intro x member
    have := bound x member
    exact echo_leaf (by omega)
  · rw [next]
    exact further

theorem export_of_start (h : s.Stands around (l, .start) c c') :
    (∃ u, c.rest = "export".toList ++ u) ∧
      skipGap c' = ([], ⟨c.offset + s.before.length, c.rest ++ s.behind⟩) := by
  obtain ⟨code, beyond, rfl, nonempty, rfl⟩ := h
  have break_before : 0 < s.before.length := List.length_pos_of_ne_nil nonempty
  rcases beyond with e | ⟨_, u, e⟩
  · exact absurd e (Held.ne_nil code)
  · refine ⟨⟨u, e⟩, ?_⟩
    have follows : Beyond false (s.text ++ s.behind) :=
      Or.inr ⟨rfl, u ++ s.behind, by rw [← List.append_assoc]; exact congrArg (· ++ s.behind) e⟩
    rw [skipGap_break follows]
    simp only [Cursor.ofText]
    congr 2
    omega

theorem skipGap_start (h : s.Stands around (l, .start) c c') :
    ∃ d', skipGap c = ([], c) ∧ skipGap c' = ([], d') ∧ s.Stands around (l, .inside) c d' ∧
      Stop (l ++ around) c.rest := by
  obtain ⟨⟨u, e⟩, gap⟩ := export_of_start h
  obtain ⟨code, beyond, rfl, _⟩ := h
  exact ⟨_, skipGap_beyond beyond, gap, ⟨code, Cursor.Reaches.refl _, rfl⟩, code, 'e', _, e,
    by decide, fun slash => absurd slash (by decide)⟩

theorem quiet_of_start (h : s.Stands around (l, .start) c c') : Quiet false c ∧ Quiet false c' := by
  obtain ⟨⟨u, e⟩, gap⟩ := export_of_start h
  exact ⟨quiet_of_beyond h.2.1, _, gap, Or.inr ⟨rfl, u ++ s.behind, by rw [e, List.append_assoc]⟩⟩

theorem quiet_of_break {last : Bool} {t : List Char} (e : c.rest = '\n' :: t) (h : Beyond last t) :
    Quiet last c := by
  obtain ⟨o, r⟩ := c
  obtain rfl : r = '\n' :: t := e
  exact ⟨_, skipGap_break h, h⟩

theorem quiet_of_border (h : s.Stands around (l, .border) c c') : Quiet false c ∧ Quiet false c' := by
  obtain ⟨⟨_, rest⟩, moved⟩ := h
  refine ⟨quiet_of_break rest (Or.inl rfl), quiet_of_break (t := s.behind) ?_ s.follows⟩
  rw [moved.moved, rest]
  rfl

end Setting

end SourceSpecs.Syntax
