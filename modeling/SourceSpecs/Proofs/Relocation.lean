import SourceSpecs.Proofs.RoundTrip
/-!
A fragment is read alike wherever it stands. Two cursors stand at the same place of one fragment,
with different texts behind it. A reading that ends with the fragment at one of them ends with it at
the other, and captures the same parts. A header needs more: no brace may come next behind it.
-/
namespace SourceSpecs.Declaration

open Text

theorem namedAfter_offset_le {keyword : String} {c : Cursor} {r : Span × Cursor}
    (read : namedAfter keyword c = some r) : c.offset ≤ r.2.offset := by
  obtain ⟨a, opened, read⟩ := Option.bind_eq_some_iff.1 read
  obtain ⟨b, spaced, read⟩ := Option.bind_eq_some_iff.1 read
  obtain ⟨e, named, last⟩ := Option.bind_eq_some_iff.1 read
  obtain rfl := Option.some.inj last
  have reaches := (Cursor.reaches_past? opened).trans
    ((Cursor.reaches_skipSome? spaced).trans (Cursor.reaches_skipSome? named))
  exact reaches.offset_le

/-- A fragment in two texts: where it begins and what stands behind it. -/
structure Copies where
  fragment : List Char
  start : Nat
  start' : Nat
  behind : List Char
  behind' : List Char

namespace Copies

variable (s : Copies)

def stop : Cursor := ⟨s.start + s.fragment.length, s.behind⟩

def stop' : Cursor := ⟨s.start' + s.fragment.length, s.behind'⟩

/-- Both cursors have the same part of the fragment before them. -/
def Twins (c c' : Cursor) : Prop := ∃ v, c.Reads v s.stop ∧ c'.Reads v s.stop'

def swap : Copies := ⟨s.fragment, s.start', s.start, s.behind', s.behind⟩

def SameShape (x x' : Capture) : Prop :=
  shapeOf ⟨s.start, s.fragment, [x]⟩ x = shapeOf ⟨s.start', s.fragment, [x']⟩ x'

variable {s} {c c' d : Cursor} {u : List Char} {p : Char → Bool}

theorem Twins.swap (h : s.Twins c c') : s.swap.Twins c' c := by
  obtain ⟨v, reads, reads'⟩ := h
  exact ⟨v, reads', reads⟩

theorem twins_start :
    s.Twins ⟨s.start, s.fragment ++ s.behind⟩ ⟨s.start', s.fragment ++ s.behind'⟩ :=
  ⟨s.fragment, Cursor.reads_of_rest rfl, Cursor.reads_of_rest rfl⟩

theorem Twins.stop_eq (h : s.Twins s.stop c') : c' = s.stop' := by
  obtain ⟨v, reads, reads'⟩ := h
  have := reads.2
  obtain rfl : v = [] := List.length_eq_zero_iff.1 (by omega)
  exact Cursor.reads_nil_iff.1 reads'

theorem Twins.reads (h : s.Twins c c') (reads : c.Reads u d) (within : d.offset ≤ s.stop.offset) :
    ∃ d', s.Twins d d' ∧ c'.Reads u d' := by
  obtain ⟨v, whole, whole'⟩ := h
  obtain ⟨w, rfl, rest⟩ := reads.prefix whole (by have := reads.2; have := whole.2; omega)
  have parts : c'.rest = u ++ (w ++ s.stop'.rest) := by rw [whole'.1, List.append_assoc]
  refine ⟨_, ⟨w, rest, rfl, ?_⟩, Cursor.reads_of_rest parts⟩
  rw [whole'.2, List.length_append, Nat.add_assoc]

theorem Twins.takes {L : Language Char} (h : s.Twins c c') (takes : Takes L c d)
    (within : d.offset ≤ s.stop.offset) : ∃ d', s.Twins d d' ∧ Takes L c' d' := by
  obtain ⟨u, member, reads⟩ := takes
  obtain ⟨d', twins, reads'⟩ := h.reads reads within
  exact ⟨d', twins, u, member, reads'⟩

theorem Twins.past_word {w : String} (h : s.Twins c c') (read : word w c = some d)
    (within : d.offset ≤ s.stop.offset) : ∃ d', s.Twins d d' ∧ word w c' = some d' := by
  obtain ⟨d', twins, reads⟩ := h.reads (Cursor.past?_eq_some_iff.1 read) within
  exact ⟨d', twins, Cursor.past?_eq_some_iff.2 reads⟩

theorem Twins.past_next? {x : Char} (h : s.Twins c c') (read : c.next? p = some (x, d))
    (within : d.offset ≤ s.stop.offset) : ∃ d', s.Twins d d' ∧ c'.next? p = some (x, d') := by
  obtain ⟨reads, px⟩ := Cursor.next?_eq_some_iff.1 read
  obtain ⟨d', twins, reads'⟩ := h.reads reads within
  exact ⟨d', twins, Cursor.next?_eq_some_iff.2 ⟨reads', px⟩⟩

theorem Twins.head? (h : s.Twins c c') (within : c.offset < s.stop.offset) :
    c'.rest.head? = c.rest.head? := by
  obtain ⟨v, reads, reads'⟩ := h
  cases v with
  | nil =>
    have := reads.2
    simp only [List.length_nil] at this
    omega
  | cons x v => rw [reads.1, reads'.1, List.cons_append, List.cons_append, List.head?_cons,
      List.head?_cons]

theorem Twins.past_skip (h : s.Twins c c') (within : (c.skip p).offset < s.stop.offset) :
    s.Twins (c.skip p) (c'.skip p) := by
  obtain ⟨u, reads, inside, outside⟩ := Cursor.skip_eq_iff.1 (rfl : c.skip p = c.skip p)
  obtain ⟨d', twins, reads'⟩ := h.reads reads (Nat.le_of_lt within)
  have skipped : c'.skip p = d' := by
    apply Cursor.skip_eq_iff.2
    refine ⟨u, reads', inside, ?_⟩
    rw [twins.head? within]
    exact outside
  rw [skipped]
  exact twins

theorem Twins.past_skipSome? (h : s.Twins c c') (read : c.skipSome? p = some d)
    (within : d.offset < s.stop.offset) : ∃ d', s.Twins d d' ∧ c'.skipSome? p = some d' := by
  obtain ⟨u, reads, nonempty, inside, outside⟩ := Cursor.skipSome?_eq_some_iff.1 read
  obtain ⟨d', twins, reads'⟩ := h.reads reads (Nat.le_of_lt within)
  refine ⟨d', twins, Cursor.skipSome?_eq_some_iff.2 ⟨u, reads', nonempty, inside, ?_⟩⟩
  rw [twins.head? within]
  exact outside

/-- A search for the nearest start that ends with the fragment begins at the same place in both.
    An earlier start in one copy would be one in the other as well. -/
theorem Twins.past_firstAlong {β β' : Type} {stopOf : β → Cursor} {stopOf' : β' → Cursor}
    {r : Cursor → Option β} {r' : Cursor → Option β'} {L : Language Char} {b : β}
    (finds : Finds (· ≤ ·) stopOf r L) (finds' : Finds (· ≤ ·) stopOf' r' L)
    (search' : Finds (· ≤ ·) stopOf' (fun c => c.firstAlong p r') (run p * L))
    (h : s.Twins c c') (found : c.firstAlong p r = some b) (ends : stopOf b = s.stop) :
    ∃ d d' b', s.Twins d d' ∧ r d = some b ∧ r' d' = some b' ∧ c'.firstAlong p r' = some b' := by
  obtain ⟨u, d, reads, inside, here, before⟩ := Cursor.exists_of_firstAlong found
  have ends_here := (finds.best here).1
  rw [ends] at ends_here
  have within := takes_offset_le ends_here
  obtain ⟨d', twins, reads'⟩ := h.reads reads within
  obtain ⟨e', twins_end, takes'⟩ := twins.takes ends_here (Nat.le_refl _)
  obtain rfl := twins_end.stop_eq
  have some_found : c'.firstAlong p r' ≠ none :=
    Cursor.firstAlong_ne_none reads' inside (finds'.found takes')
  obtain ⟨b', found'⟩ := Option.ne_none_iff_exists'.1 some_found
  have best' := (search'.best found').2 _ (takes_mul_iff.2 ⟨d', ⟨u, inside, reads'⟩, takes'⟩)
  obtain ⟨u₂, d₂, reads₂, _, here', before'⟩ := Cursor.exists_of_firstAlong found'
  have takes₂ := (finds'.best here').1
  -- the start found in the second copy has a start of its own in the first
  have within₂ : d₂.offset ≤ s.swap.stop.offset := Nat.le_trans (takes_offset_le takes₂) best'
  obtain ⟨d₁, twins₂, reads₁⟩ := h.swap.reads reads₂ within₂
  obtain ⟨_, _, takes₁⟩ := twins₂.takes takes₂ best'
  have not_before : ¬ u₂.length < u.length := by
    intro less
    exact finds.found takes₁ (before u₂ d₁ reads₁ less)
  have not_behind : ¬ u.length < u₂.length := by
    intro less
    exact finds'.found takes' (before' u d' reads' less)
  obtain ⟨w, rfl, between⟩ := reads'.prefix reads₂ (by omega)
  obtain rfl : w = [] := by
    simp only [List.length_append] at not_behind
    exact List.length_eq_zero_iff.1 (by omega)
  obtain rfl := Cursor.reads_nil_iff.1 between
  exact ⟨d, d', b', twins, here, here', found'⟩

def SamePart (s : Copies) (x x' : Span) : Prop :=
  part ⟨s.start, s.fragment, []⟩ x = part ⟨s.start', s.fragment, []⟩ x'

theorem Twins.samePart {e e' : Cursor} (h : s.Twins c c') (k : s.Twins e e') :
    s.SamePart ⟨c.offset, e.offset⟩ ⟨c'.offset, e'.offset⟩ := by
  obtain ⟨v, reads, reads'⟩ := h
  obtain ⟨w, reads₂, reads₂'⟩ := k
  have first : c.offset - s.start = c'.offset - s.start' := by
    have := reads.2
    have := reads'.2
    simp only [stop, stop'] at *
    omega
  have last : e.offset - s.start = e'.offset - s.start' := by
    have := reads₂.2
    have := reads₂'.2
    simp only [stop, stop'] at *
    omega
  simp only [SamePart, part, first, last]

theorem Twins.past_namedAfter {keyword : String} {x : Span} (h : s.Twins c c')
    (read : namedAfter keyword c = some (x, d)) (within : d.offset < s.stop.offset) :
    ∃ x' d', s.Twins d d' ∧ s.SamePart x x' ∧ namedAfter keyword c' = some (x', d') := by
  obtain ⟨a, opened, read⟩ := Option.bind_eq_some_iff.1 read
  obtain ⟨b, spaced, read⟩ := Option.bind_eq_some_iff.1 read
  obtain ⟨e, named, last⟩ := Option.bind_eq_some_iff.1 read
  obtain ⟨rfl, rfl⟩ := Prod.mk.inj (Option.some.inj last)
  have before : b.offset ≤ e.offset := (Cursor.reaches_skipSome? named).offset_le
  have before' : a.offset ≤ b.offset := (Cursor.reaches_skipSome? spaced).offset_le
  obtain ⟨a', twins, opened'⟩ := h.past_word opened (by omega)
  obtain ⟨b', twins', spaced'⟩ := twins.past_skipSome? spaced (by omega)
  obtain ⟨e', twins'', named'⟩ := twins'.past_skipSome? named within
  refine ⟨_, e', twins'', twins'.samePart twins'', ?_⟩
  simp only [namedAfter, opened', spaced', named', Option.bind_eq_bind,
    Option.bind_some, Option.pure_def]

theorem Twins.past_exportMark {keyword : String} {r : Span × Cursor} (h : s.Twins c c')
    (keyword_first : ∃ x ∈ keyword.toList.head?, x ≠ 'e')
    (read : namedAfter keyword (exportMark c).2 = some r)
    (within : r.2.offset < s.stop.offset) :
    s.Twins (exportMark c).2 (exportMark c').2 ∧
      (exportMark c').1.isSome = (exportMark c).1.isSome := by
  have forward := namedAfter_offset_le read
  cases mark : (word "export" c).bind (Cursor.skipSome? isBlank) with
  | some d =>
    obtain ⟨a, opened, spaced⟩ := Option.bind_eq_some_iff.1 mark
    have here : exportMark c = (some ⟨c.offset, d.offset⟩, d) := by
      rw [exportMark, mark]
    rw [here] at forward
    have before : a.offset ≤ d.offset := (Cursor.reaches_skipSome? spaced).offset_le
    obtain ⟨a', twins, opened'⟩ := h.past_word opened (by simp only at forward; omega)
    obtain ⟨d', twins', spaced'⟩ := twins.past_skipSome? spaced (by simp only at forward; omega)
    have there : exportMark c' = (some ⟨c'.offset, d'.offset⟩, d') := by
      rw [exportMark, opened', Option.bind_some, spaced']
    rw [here, there]
    exact ⟨twins', rfl⟩
  | none =>
    have here : exportMark c = (none, c) := by rw [exportMark, mark]
    rw [here] at forward read
    -- what begins with the keyword does not begin with `export`
    obtain ⟨a, opened, _⟩ := Option.bind_eq_some_iff.1 read
    obtain ⟨x, first, not_e⟩ := keyword_first
    have begins : c.rest.head? = some x := by
      rw [(Cursor.past?_eq_some_iff.1 opened).1, List.head?_append, first, Option.some_or]
    have unmarked : word "export" c' = none := by
      cases opened' : word "export" c' with
      | none => rfl
      | some a' =>
        have begins' : c'.rest.head? = some 'e' := by
          rw [(Cursor.past?_eq_some_iff.1 opened').1]
          rfl
        rw [h.head? (by simp only at forward; omega), begins] at begins'
        exact absurd (Option.some.inj begins') not_e
    have there : exportMark c' = (none, c') := by
      rw [exportMark, unmarked, Option.bind_none]
    rw [here, there]
    exact ⟨h, rfl⟩

theorem Twins.past_readNamed {keyword opener closer : String}
    {capture : Span → Option Span → Span → Capture} {x : Capture} (h : s.Twins c c')
    (shape : String → Bool → Shape)
    (shapeOf_eq : ∀ m whole exported name,
      shapeOf m (capture whole exported name) = shape (part m name) exported.isSome)
    (keyword_first : ∃ x ∈ keyword.toList.head?, x ≠ 'e') (opener_nonempty : 0 < opener.toList.length)
    (read : readNamed keyword opener closer capture (fun x d => some (x, d)) c = some (x, s.stop)) :
    ∃ x', readNamed keyword opener closer capture (fun x d => some (x, d)) c' = some (x', s.stop') ∧
      s.SameShape x x' := by
  obtain ⟨⟨name, a⟩, named, read⟩ := Option.bind_eq_some_iff.1 read
  obtain ⟨b, opened, closed⟩ := Option.bind_eq_some_iff.1 read
  have finds (f : Cursor → Capture) : Finds (· ≤ ·) Prod.snd
      (fun d => (word closer d).bind fun d => some (f d, d)) (exactly closer) :=
    finds_some _ (fun _ => rfl) (finds_of_iff Nat.le_refl takes_exactly_iff)
  have search_ends : b.offset ≤ s.stop.offset := by
    exact takes_offset_le ((finds_closer closer _).best closed).1
  have opening := (Cursor.past?_eq_some_iff.1 opened).2
  have skipped : a.offset ≤ (a.skip isBlank).offset := (Cursor.reaches_skip isBlank a).offset_le
  obtain ⟨twins, marks⟩ := h.past_exportMark keyword_first named (by simp only; omega)
  obtain ⟨name', a', twins', same_name, named'⟩ := twins.past_namedAfter named (by omega)
  obtain ⟨b', twins'', opened'⟩ := (twins'.past_skip (by omega)).past_word opened search_ends
  obtain ⟨d, d', r', twins₃, here, here', closed'⟩ := twins''.past_firstAlong (finds _) (finds _)
    (finds_closer closer fun d => capture ⟨c'.offset, d.offset⟩ (exportMark c').1 name')
    closed rfl
  obtain ⟨e, ended, last⟩ := Option.bind_eq_some_iff.1 here
  obtain ⟨e', ended', last'⟩ := Option.bind_eq_some_iff.1 here'
  obtain ⟨rfl, rfl⟩ := Prod.mk.inj (Option.some.inj last)
  obtain ⟨_, twins₄, ended₂⟩ := twins₃.past_word ended (Nat.le_refl _)
  obtain rfl := twins₄.stop_eq
  obtain rfl := Option.some.inj (ended'.symm.trans ended₂)
  obtain rfl := Option.some.inj last'
  refine ⟨capture ⟨c'.offset, s.stop'.offset⟩ (exportMark c').1 name', ?_, ?_⟩
  · simp only [readNamed, named', opened', Option.bind_eq_bind, Option.bind_some]
    exact closed'
  · rw [SameShape, shapeOf_eq, shapeOf_eq, marks]
    exact congrArg (fun n => shape n _) same_name

/-- A path is read alike, where its closing part is. -/
theorem Twins.past_readSource {marker : String} {C : Language Char} (closing : Closing C)
    {close : Cursor → Option Cursor} (close_iff : ∀ {c d}, Takes C c d ↔ close c = some d)
    {capture : Span → Span → Capture} (shape : String → Shape)
    (shapeOf_eq : ∀ m whole path, shapeOf m (capture whole path) = shape (part m path))
    {start : Nat} (start' : Nat) {x : Capture} (h : s.Twins c c')
    (read : readSource marker close capture (fun x d => some (x, d)) start c = some (x, s.stop)) :
    ∃ x', readSource marker close capture (fun x d => some (x, d)) start' c' = some (x', s.stop') ∧
      s.SameShape x x' := by
  obtain ⟨a, opened, read⟩ := Option.bind_eq_some_iff.1 read
  obtain ⟨⟨q, path⟩, quoted, searched⟩ := Option.bind_eq_some_iff.1 read
  have finds (f : Cursor → Cursor → Capture) : Finds (· ≤ ·) Prod.snd
      (fun t => (t.next? isQuote).bind fun x => (close x.2).bind fun d => some (f t d, d))
      (oneOf isQuote * C) :=
    finds_oneOf_mul isQuote fun t =>
      finds_some (fun d => (f t d, d)) (fun _ => rfl) (finds_of_iff Nat.le_refl close_iff)
  have behind : path.offset ≤ s.stop.offset :=
    takes_offset_le ((finds_pathEnd closing close_iff _).best searched).1
  have one := (Cursor.next?_eq_some_iff.1 quoted).1.2
  have skipped : a.offset ≤ (a.skip isBlank).offset := (Cursor.reaches_skip isBlank a).offset_le
  simp only [List.length_singleton] at one
  obtain ⟨a', twins, opened'⟩ := h.past_word opened (by omega)
  obtain ⟨path', twins', quoted'⟩ := (twins.past_skip (by omega)).past_next? quoted behind
  obtain ⟨d, d', r', twins₂, here, here', searched'⟩ := twins'.past_firstAlong (finds _) (finds _)
    (finds_pathEnd closing close_iff fun t d =>
      capture ⟨start', d.offset⟩ ⟨path'.offset, t.offset⟩) searched rfl
  obtain ⟨⟨q₂, e⟩, next, here⟩ := Option.bind_eq_some_iff.1 here
  obtain ⟨f, closed, last⟩ := Option.bind_eq_some_iff.1 here
  obtain ⟨rfl, rfl⟩ := Prod.mk.inj (Option.some.inj last)
  have closed_takes := close_iff.2 closed
  obtain ⟨e', twins₃, next'⟩ := twins₂.past_next? next (takes_offset_le closed_takes)
  obtain ⟨_, twins₄, closed_takes'⟩ := twins₃.takes closed_takes (Nat.le_refl _)
  obtain rfl := twins₄.stop_eq
  simp only [next', close_iff.1 closed_takes', Option.bind_some] at here'
  obtain rfl := Option.some.inj here'
  refine ⟨capture ⟨start', s.stop'.offset⟩ ⟨path'.offset, d'.offset⟩, ?_, ?_⟩
  · simp only [readSource, opened', quoted', Option.bind_eq_bind, Option.bind_some]
    exact searched'
  · rw [SameShape, shapeOf_eq, shapeOf_eq]
    exact congrArg shape (twins'.samePart twins₂)

theorem Twins.past_source {marker : String} (marks : Marker marker.toList) {C : Language Char}
    (closing : Closing C) {close : Cursor → Option Cursor}
    (close_iff : ∀ {c d}, Takes C c d ↔ close c = some d) {capture : Span → Span → Capture}
    (shape : String → Shape)
    (shapeOf_eq : ∀ m whole path, shapeOf m (capture whole path) = shape (part m path))
    {start : Nat} (start' : Nat) {x : Capture} (h : s.Twins c c')
    (read : c.firstAlong (fun _ => true)
      (readSource marker close capture (fun x d => some (x, d)) start) = some (x, s.stop)) :
    ∃ x', c'.firstAlong (fun _ => true)
        (readSource marker close capture (fun x d => some (x, d)) start') = some (x', s.stop') ∧
      s.SameShape x x' := by
  obtain ⟨d, d', r', twins, here, here', found'⟩ := h.past_firstAlong
    (finds_readSource marker closing close_iff capture start)
    (finds_readSource marker closing close_iff capture start')
    (finds_source marker marks closing close_iff capture start') read rfl
  obtain ⟨x', there, same⟩ := twins.past_readSource closing close_iff shape shapeOf_eq start'
    here
  obtain rfl := Option.some.inj (here'.symm.trans there)
  exact ⟨x', found', same⟩

theorem Twins.past_headerEnd (h : s.Twins c c') (free : Block.NoBraceNext s.behind')
    (read : headerEnd c = some s.stop) : headerEnd c' = some s.stop' := by
  obtain ⟨d', twins, takes'⟩ := h.takes (finds_headerEnd.best read).1 (Nat.le_refl _)
  obtain rfl := twins.stop_eq
  exact Block.headerEnd_of_takes free takes'

theorem Twins.past_function {x : Capture} (h : s.Twins c c') (free : Block.NoBraceNext s.behind')
    (read : readFunction (fun x d => some (x, d)) c = some (x, s.stop)) :
    ∃ x', readFunction (fun x d => some (x, d)) c' = some (x', s.stop') ∧ s.SameShape x x' := by
  rw [readFunction_eq] at read
  obtain ⟨a, exported, read⟩ := Option.bind_eq_some_iff.1 read
  obtain ⟨b, spaced, read⟩ := Option.bind_eq_some_iff.1 read
  obtain ⟨⟨name, e⟩, named, read⟩ := Option.bind_eq_some_iff.1 read
  obtain ⟨f, opened, read⟩ := Option.bind_eq_some_iff.1 read
  obtain ⟨g, closed, read⟩ := Option.bind_eq_some_iff.1 read
  obtain ⟨_, ended, last⟩ := Option.bind_eq_some_iff.1 read
  obtain ⟨rfl, rfl⟩ := Prod.mk.inj (Option.some.inj last)
  -- every place on the way lies in front of the last one
  have at_end : g.offset ≤ s.stop.offset := takes_offset_le (finds_headerEnd.best ended).1
  have closing : g.offset = (f.skip (· != ')')).offset + 1 := (Cursor.past?_eq_some_iff.1 closed).2
  have inner := (Cursor.reaches_skip (· != ')') f).offset_le
  have opening : f.offset = (e.skip isBlank).offset + 1 := (Cursor.past?_eq_some_iff.1 opened).2
  have gap := (Cursor.reaches_skip isBlank e).offset_le
  have name_end : b.offset ≤ e.offset := namedAfter_offset_le named
  have mark_end := (Cursor.reaches_skipSome? spaced).offset_le
  obtain ⟨a', twins, exported'⟩ := h.past_word exported (by omega)
  obtain ⟨b', twins, spaced'⟩ := twins.past_skipSome? spaced (by omega)
  obtain ⟨name', e', twins, _, named'⟩ := twins.past_namedAfter named (by omega)
  obtain ⟨f', twins, opened'⟩ := (twins.past_skip (by omega)).past_word opened (by omega)
  obtain ⟨g', twins, closed'⟩ := (twins.past_skip (by omega)).past_word closed at_end
  have ended' := twins.past_headerEnd free ended
  refine ⟨.function ⟨c'.offset, s.stop'.offset⟩, ?_, rfl⟩
  simp only [readFunction_eq, exported', spaced', named', opened', closed', ended',
    Option.bind_some]

theorem source_offset_lt {marker : String} {C : Language Char} (closing : Closing C)
    {close : Cursor → Option Cursor} (close_iff : ∀ {c d}, Takes C c d ↔ close c = some d)
    {capture : Span → Span → Capture} {start : Nat} {x : Capture}
    (nonempty : 0 < marker.toList.length)
    (read : c.firstAlong (fun _ => true)
      (readSource marker close capture (fun x d => some (x, d)) start) = some (x, d)) :
    c.offset < d.offset := by
  obtain ⟨u, e, reads, _, here, _⟩ := Cursor.exists_of_firstAlong read
  have takes := ((finds_readSource marker closing close_iff capture start).best here).1
  obtain ⟨f, marked, behind⟩ := takes_exactly_mul_iff.1 takes
  have := reads.2
  have := (Cursor.past?_eq_some_iff.1 marked).2
  have : f.offset ≤ d.offset := takes_offset_le behind
  omega

variable (s)

/-- What a form reads up to the end of the fragment it reads in the other copy as well. -/
theorem at?_copy {f : Form} {x : Capture} (free : Block.NoBraceNext s.behind')
    (read : f.at? ⟨s.start, s.fragment ++ s.behind⟩ = some (x, s.stop)) :
    ∃ x', f.at? ⟨s.start', s.fragment ++ s.behind'⟩ = some (x', s.stop') ∧ s.SameShape x x' := by
  have twins := s.twins_start
  cases f with
  | function => exact twins.past_function free read
  | interface =>
    exact twins.past_readNamed .interface (fun _ _ _ _ => rfl) ⟨'i', rfl, by decide⟩ (by decide) read
  | typeAlias =>
    exact twins.past_readNamed .typeAlias (fun _ _ _ _ => rfl) ⟨'t', rfl, by decide⟩ (by decide) read
  | importFrom =>
    rw [Form.at?, Form.read, readImport_eq] at read
    obtain ⟨a, opened, read⟩ := Option.bind_eq_some_iff.1 read
    obtain ⟨b, spaced, read⟩ := Option.bind_eq_some_iff.1 read
    have within := source_offset_lt closing_lineEnd takes_lineEnd_iff (by decide) read
    have gap := (Cursor.reaches_skipSome? spaced).offset_le
    obtain ⟨a', twins, opened'⟩ := twins.past_word opened (by omega)
    obtain ⟨b', twins, spaced'⟩ := twins.past_skipSome? spaced within
    obtain ⟨x', read', same⟩ := twins.past_source marker_from closing_lineEnd takes_lineEnd_iff
      .importFrom (fun _ _ _ => rfl) s.start' read
    refine ⟨x', ?_, same⟩
    rw [Form.at?, Form.read, readImport_eq, opened', Option.bind_some, spaced', Option.bind_some]
    exact read'
  | require =>
    rw [Form.at?, Form.read, readRequire_eq] at read
    obtain ⟨a, opened, read⟩ := Option.bind_eq_some_iff.1 read
    have within := source_offset_lt closing_callEnd takes_callEnd_iff (by decide) read
    obtain ⟨a', twins, opened'⟩ := twins.past_word opened (Nat.le_of_lt within)
    obtain ⟨x', read', same⟩ := twins.past_source marker_require closing_callEnd
      takes_callEnd_iff .require (fun _ _ _ => rfl) s.start' read
    refine ⟨x', ?_, same⟩
    rw [Form.at?, Form.read, readRequire_eq, opened', Option.bind_some]
    exact read'

end Copies

theorem namedAfter_begins {keyword : String} {c : Cursor} {r : Span × Cursor}
    (read : namedAfter keyword c = some r) : keyword.toList <+: c.rest := by
  obtain ⟨a, opened, _⟩ := Option.bind_eq_some_iff.1 read
  exact ⟨a.rest, (Cursor.past?_eq_some_iff.1 opened).1.symm⟩

theorem exportMark_of_begins {w : List Char} {x : Char} {c : Cursor} (begins : x :: w <+: c.rest)
    (not_e : x ≠ 'e') : exportMark c = (none, c) := by
  have unmarked : word "export" c = none := by
    apply Block.word_eq_none
    intro mark
    obtain ⟨u, parts⟩ := begins
    obtain ⟨v, parts'⟩ := mark
    rw [← parts] at parts'
    exact not_e (List.cons.inj parts').1.symm
  rw [exportMark, unmarked, Option.bind_none]

theorem keyword_of_at? {f : Form} {c : Cursor} {r : Capture × Cursor} (read : f.at? c = some r) :
    (Block.keyword f).toList <+: (exportMark c).2.rest := by
  cases f with
  | function =>
    rw [Form.at?, Form.read, readFunction_eq] at read
    obtain ⟨a, exported, read⟩ := Option.bind_eq_some_iff.1 read
    obtain ⟨b, spaced, read⟩ := Option.bind_eq_some_iff.1 read
    obtain ⟨named, name, _⟩ := Option.bind_eq_some_iff.1 read
    have marked : exportMark c = (some ⟨c.offset, b.offset⟩, b) := by
      rw [exportMark, exported, Option.bind_some, spaced]
    rw [marked]
    exact namedAfter_begins name
  | interface =>
    obtain ⟨named, name, _⟩ := Option.bind_eq_some_iff.1 read
    exact namedAfter_begins name
  | typeAlias =>
    obtain ⟨named, name, _⟩ := Option.bind_eq_some_iff.1 read
    exact namedAfter_begins name
  | importFrom =>
    obtain ⟨a, opened, _⟩ := Option.bind_eq_some_iff.1 read
    have begins : "import".toList <+: c.rest := ⟨a.rest, (Cursor.past?_eq_some_iff.1 opened).1.symm⟩
    rw [exportMark_of_begins begins (by decide)]
    exact begins
  | require =>
    obtain ⟨a, opened, _⟩ := Option.bind_eq_some_iff.1 read
    have begins : "const".toList <+: c.rest := ⟨a.rest, (Cursor.past?_eq_some_iff.1 opened).1.symm⟩
    rw [exportMark_of_begins begins (by decide)]
    exact begins

theorem form_eq_of_at? {f g : Form} {c : Cursor} {r r' : Capture × Cursor} (read : f.at? c = some r)
    (other : g.at? c = some r') : f = g := by
  by_contra differ
  obtain ⟨t, parts⟩ := keyword_of_at? other
  exact absurd (parts ▸ keyword_of_at? read) (Block.keywords_apart differ t)

theorem firstForm?_of_at? {f : Form} {c : Cursor} {r : Capture × Cursor} (read : f.at? c = some r) :
    firstForm? c = some r := by
  have others : ∀ g ≠ f, g.at? c = none := by
    intro g differ
    cases other : g.at? c with
    | none => rfl
    | some r' => exact absurd (form_eq_of_at? other read) differ
  rw [Block.firstForm?_of_only others, read]

/-- The first form to read a fragment is the first in the other copy as well. -/
theorem Copies.firstForm?_copy (s : Copies) {x : Capture} (free : Block.NoBraceNext s.behind')
    (read : firstForm? ⟨s.start, s.fragment ++ s.behind⟩ = some (x, s.stop)) :
    ∃ x', firstForm? ⟨s.start', s.fragment ++ s.behind'⟩ = some (x', s.stop') ∧
      s.SameShape x x' := by
  obtain ⟨f, form⟩ := exists_form_of_firstForm? read
  obtain ⟨x', form', same⟩ := s.at?_copy free form
  exact ⟨x', firstForm?_of_at? form', same⟩

end SourceSpecs.Declaration
