import SourceSpecs.Proofs.FormReading
/-!
Reading an import or a require. The nearest marker with a quoted path and a closing part behind it
is taken, with the nearest quote that closes the path; no text of the form ends earlier.
-/
namespace SourceSpecs.Declaration

open Text

def sourceTail (marker : String) (closing : Language Char) : Language Char :=
  exactly marker * (run isBlank * (oneOf isQuote * (run isInLine * (oneOf isQuote * closing))))

/-- Closing parts of a source: they hold no quote, and no text that ends like one ends inside
    another, between its quote and its line break. -/
structure Closing (C : Language Char) : Prop where
  no_quote : ∀ w ∈ C, ∀ x ∈ w, isQuote x = false
  line_break : ∀ w ∈ C, w.getLast? = some '\n'
  apart : ∀ w ∈ C, ∀ w' ∈ C, ∀ q v z x y, isQuote q = true → w = v ++ z → z ≠ [] →
    x ++ w' ≠ y ++ q :: v

/-- Occurrences of the marker do not overlap, and none begins in blanks. -/
structure Marker (marker : List Char) : Prop where
  nonempty : marker ≠ []
  no_blank : ∀ x ∈ marker, isBlank x = false
  no_border : ∀ i, 0 < i → i < marker.length → ¬ marker.drop i <+: marker

theorem marker_from : Marker "from".toList where
  nonempty := by decide
  no_blank := by
    have plain : "from".toList.all (!isBlank ·) = true := by decide
    simpa using plain
  no_border := by
    intro i positive less
    obtain rfl | rfl | rfl : i = 1 ∨ i = 2 ∨ i = 3 := by
      change i < 4 at less
      omega
    all_goals decide

theorem marker_require : Marker "require(".toList where
  nonempty := by decide
  no_blank := by
    have plain : "require(".toList.all (!isBlank ·) = true := by decide
    simpa using plain
  no_border := by
    intro i positive less
    obtain rfl | rfl | rfl | rfl | rfl | rfl | rfl :
        i = 1 ∨ i = 2 ∨ i = 3 ∨ i = 4 ∨ i = 5 ∨ i = 6 ∨ i = 7 := by
      change i < 8 at less
      omega
    all_goals decide

theorem not_isBlank_of_isQuote {x : Char} (h : isQuote x = true) : isBlank x = false := by
  simp only [isQuote, Bool.or_eq_true, beq_iff_eq] at h
  rcases h with rfl | rfl <;> decide

theorem not_isQuote_of_isBlank {x : Char} (h : isBlank x = true) : isQuote x = false := by
  by_contra quote
  simp [not_isBlank_of_isQuote (Bool.eq_true_of_not_eq_false quote)] at h

theorem mem_sourceTail {marker : String} {C : Language Char} {w : List Char} :
    w ∈ sourceTail marker C ↔ ∃ b q path q' close, (∀ x ∈ b, isBlank x = true) ∧
      isQuote q = true ∧ (∀ x ∈ path, isInLine x = true) ∧ isQuote q' = true ∧ close ∈ C ∧
        w = marker.toList ++ b ++ q :: path ++ q' :: close := by
  simp only [sourceTail, Language.mem_mul]
  constructor
  · rintro ⟨_, rfl, _, ⟨b, hb, _, ⟨_, ⟨q, hq, rfl⟩, _, ⟨path, hpath, _, ⟨_, ⟨q', hq', rfl⟩, close,
      hclose, rfl⟩, rfl⟩, rfl⟩, rfl⟩, rfl⟩
    exact ⟨b, q, path, q', close, hb, hq, hpath, hq', hclose, by simp⟩
  · rintro ⟨b, q, path, q', close, hb, hq, hpath, hq', hclose, rfl⟩
    exact ⟨_, rfl, _, ⟨b, hb, _, ⟨_, ⟨q, hq, rfl⟩, _, ⟨path, hpath, _, ⟨_, ⟨q', hq', rfl⟩, close,
      hclose, rfl⟩, rfl⟩, rfl⟩, rfl⟩, by simp⟩

theorem marker_not_after {m b u r : List Char} (h : Marker m)
    (blank : ∀ x ∈ b, isBlank x = true) (parts : m ++ b = u ++ m ++ r) : u = [] := by
  rw [List.append_assoc] at parts
  rcases List.append_eq_append_iff.1 parts with ⟨u', rfl, rest⟩ | ⟨m', rfl, rest⟩
  · -- the second marker would begin among the blanks
    cases m with
    | nil => exact absurd rfl h.nonempty
    | cons x m =>
      have inside := blank x (by rw [rest]; simp)
      simp [h.no_blank x List.mem_cons_self] at inside
  · by_contra nonempty
    cases m' with
    | nil =>
      cases u with
      | nil => exact nonempty rfl
      | cons x u =>
        have inside := blank x (by rw [List.nil_append] at rest; rw [← rest]; simp)
        simp [h.no_blank x (by simp)] at inside
    | cons x m' =>
      refine h.no_border u.length (List.length_pos_iff.2 nonempty) (by simp) ?_
      rw [List.drop_left]
      exact List.prefix_of_prefix_length_le ⟨b, rest.symm⟩ ⟨r, rfl⟩ (by simp)

/-- A tail that begins inside another one does not end before it. -/
theorem sourceTail_not_inside {marker : String} {C : Language Char} (h : Marker marker.toList)
    (closing : Closing C) {u v w z : List Char} (whole : w ∈ sourceTail marker C)
    (inner : v ∈ sourceTail marker C) (parts : w = u ++ v ++ z) (later : u ≠ []) : z = [] := by
  obtain ⟨b, q, path, q', close, hb, hq, hpath, hq', hclose, rfl⟩ := mem_sourceTail.1 whole
  obtain ⟨b₂, q₂, path₂, q₂', close₂, _, _, _, _, hclose₂, rfl⟩ := mem_sourceTail.1 inner
  by_contra cut
  have final : (close₂).getLast? = some '\n' := closing.line_break _ hclose₂
  have final_ne : close₂ ≠ [] := by rintro rfl; simp at final
  have not_break : ∀ x ∈ q :: path, x ≠ '\n' := by
    intro x member
    rcases List.mem_cons.1 member with rfl | member
    · rintro rfl; exact absurd hq (by decide)
    · simpa [isInLine] using hpath x member
  -- where the inner tail ends: in the closing part, in the path, or in front of it
  set inside := marker.toList ++ b₂ ++ q₂ :: path₂ ++ q₂' :: close₂ with inside_eq
  have ends : (u ++ inside).getLast? = some '\n' := by
    simp [inside_eq, List.getLast?_append, List.getLast?_cons, final]
  have not_in_path : ∀ s t, u ++ inside = marker.toList ++ b ++ s → q :: path = s ++ t → s = [] := by
    intro s t whole_eq path_eq
    by_contra nonempty
    have last := ends
    rw [whole_eq, List.getLast?_append_of_ne_nil _ nonempty] at last
    exact not_break '\n' (by rw [path_eq]; exact List.mem_append_left t (List.mem_of_getLast? last)) rfl
  have not_in_front : ∀ t, marker.toList ++ b = u ++ inside ++ t → False := by
    intro t front
    refine later (marker_not_after h hb (r := b₂ ++ q₂ :: path₂ ++ q₂' :: close₂ ++ t) ?_)
    simpa [inside_eq] using front
  rcases List.append_eq_append_iff.1 parts with ⟨s, before, after⟩ | ⟨s, before, after⟩
  · cases s with
    | nil => exact absurd (not_in_path (q :: path) [] (by simpa using before) (by simp)) (by simp)
    | cons x s =>
      obtain ⟨rfl, rest⟩ := List.cons.inj after
      refine closing.apart close hclose close₂ hclose₂ q' s z
        (u ++ (marker.toList ++ b₂ ++ q₂ :: path₂ ++ [q₂'])) (marker.toList ++ b ++ q :: path)
        hq' rest cut ?_
      simpa [inside_eq] using before
  · rcases List.append_eq_append_iff.1 before with ⟨t, front, path_eq⟩ | ⟨t, front, _⟩
    · obtain rfl := not_in_path t s front path_eq
      exact not_in_front [] (by simpa using front.symm)
    · exact not_in_front t front

theorem mem_semicolon_break {w : List Char} :
    w ∈ maybe (exactly ";") * exactly "\n" ↔ w = ['\n'] ∨ w = [';', '\n'] := by
  simp only [Language.mem_mul]
  constructor
  · rintro ⟨u, rfl | rfl, v, rfl, rfl⟩
    · exact Or.inl rfl
    · exact Or.inr rfl
  · rintro (rfl | rfl)
    · exact ⟨[], Or.inl rfl, _, rfl, rfl⟩
    · exact ⟨_, Or.inr rfl, _, rfl, rfl⟩

theorem closing_lineEnd : Closing (maybe (exactly ";") * exactly "\n") where
  no_quote := by
    intro w member
    rcases mem_semicolon_break.1 member with rfl | rfl <;> simp [isQuote]
  line_break := by
    intro w member
    rcases mem_semicolon_break.1 member with rfl | rfl <;> rfl
  apart := by
    intro w member w' member' q v z x y quote parts nonempty same
    have last : (q :: v).getLast? = some '\n' := by
      have ends : (x ++ w').getLast? = some '\n' := by
        rcases mem_semicolon_break.1 member' with rfl | rfl <;> simp
      simpa [same] using ends
    have short : v = [] ∨ v = [';'] := by
      rcases mem_semicolon_break.1 member with rfl | rfl <;>
        rcases v with _ | ⟨a, _ | ⟨b, v⟩⟩ <;> simp_all
    rcases short with rfl | rfl
    · obtain rfl : q = '\n' := by simpa using last
      exact absurd quote (by decide)
    · simp at last

theorem mem_callEnd {w : List Char} :
    w ∈ run isBlank * (exactly ")" * (maybe (exactly ";") * exactly "\n")) ↔
      ∃ g s, (∀ x ∈ g, isBlank x = true) ∧ (s = [] ∨ s = [';']) ∧ w = g ++ ')' :: s ++ ['\n'] := by
  rw [Language.mem_mul]
  simp only [Language.mem_mul (l := exactly ")"), mem_semicolon_break]
  constructor
  · rintro ⟨g, blank, _, ⟨_, rfl, t, rfl | rfl, rfl⟩, rfl⟩
    · exact ⟨g, [], blank, Or.inl rfl, by simp⟩
    · exact ⟨g, [';'], blank, Or.inr rfl, by simp⟩
  · rintro ⟨g, s, blank, rfl | rfl, rfl⟩
    · exact ⟨g, blank, _, ⟨_, rfl, _, Or.inl rfl, rfl⟩, by simp⟩
    · exact ⟨g, blank, _, ⟨_, rfl, _, Or.inr rfl, rfl⟩, by simp⟩

theorem closing_callEnd :
    Closing (run isBlank * (exactly ")" * (maybe (exactly ";") * exactly "\n"))) where
  no_quote := by
    intro w member x inside
    obtain ⟨g, s, blank, end_mark, rfl⟩ := mem_callEnd.1 member
    simp only [List.mem_append, List.mem_cons, List.not_mem_nil, or_false] at inside
    rcases inside with (member | rfl | member) | rfl
    · exact not_isQuote_of_isBlank (blank x member)
    · decide
    · rcases end_mark with rfl | rfl
      · cases member
      · obtain rfl := List.mem_singleton.1 member
        decide
    · decide
  line_break := by
    intro w member
    obtain ⟨g, s, _, _, rfl⟩ := mem_callEnd.1 member
    exact List.getLast?_concat
  apart := by
    intro w member w' member' q v z x y quote parts nonempty same
    obtain ⟨g, s, blank, end_mark, rfl⟩ := mem_callEnd.1 member
    obtain ⟨g', s', _, end_mark', rfl⟩ := mem_callEnd.1 member'
    rw [← List.append_assoc] at same
    rcases List.eq_nil_or_concat v with rfl | ⟨v, c, rfl⟩
    · obtain ⟨_, same⟩ := List.append_inj' same rfl
      obtain rfl := List.singleton_injective same
      exact absurd quote (by decide)
    rw [List.concat_eq_append, show y ++ q :: (v ++ [c]) = (y ++ q :: v) ++ [c] by simp] at same
    obtain ⟨before, line_break⟩ := List.append_inj' same rfl
    obtain rfl := List.singleton_injective line_break
    -- in front of its line break a closing part has a parenthesis or a semicolon
    have last : (q :: v).getLast? = some ')' ∨ (q :: v).getLast? = some ';' := by
      have ends := congrArg List.getLast? before
      rw [List.getLast?_append_of_ne_nil y (by simp)] at ends
      rw [← ends]
      rcases end_mark' with rfl | rfl <;> simp [← List.append_assoc]
    rw [List.concat_eq_append, List.append_assoc, List.append_assoc] at parts
    rcases List.append_eq_append_iff.1 parts with ⟨t, rfl, rest⟩ | ⟨t, rfl, rest⟩
    · rcases end_mark with rfl | rfl <;> rcases t with _ | ⟨a, _ | ⟨b, _ | ⟨c, t⟩⟩⟩ <;>
        simp [nonempty] at rest
    · rcases List.eq_nil_or_concat v with rfl | ⟨v, c, rfl⟩
      · simp only [List.getLast?_singleton, Option.some.injEq] at last
        rcases last with rfl | rfl <;> exact absurd quote (by decide)
      · have c_blank := blank c (by simp)
        rw [List.concat_eq_append, ← List.cons_append, List.getLast?_concat] at last
        simp only [Option.some.injEq] at last
        rcases last with rfl | rfl <;> exact absurd c_blank (by decide)

theorem beginsOutside_oneOf {p q : Char → Bool} (apart : ∀ x, q x = true → p x = false) :
    BeginsOutside p (oneOf q) := by
  rintro _ ⟨x, qx, rfl⟩
  exact ⟨x, rfl, apart x qx⟩

theorem finds_pathEnd {C : Language Char} (closing : Closing C) {close : Cursor → Option Cursor}
    (close_iff : ∀ {c d}, Takes C c d ↔ close c = some d) (f : Cursor → Cursor → Capture) :
    Finds (· ≤ ·) Prod.snd (fun c => c.firstAlong isInLine fun s =>
      (s.next? isQuote).bind fun x => (close x.2).bind fun d => some (f s d, d))
      (run isInLine * (oneOf isQuote * C)) := by
  refine finds_firstAlong (finds_oneOf_mul isQuote fun s =>
    finds_some (fun d => (f s d, d)) (fun _ => rfl) (finds_of_iff Nat.le_refl close_iff)) ?_
  intro c e d x u best between later _ takes
  obtain ⟨_, member, reads⟩ := best.1
  obtain ⟨_, ⟨q, quote, rfl⟩, w, close_w, rfl⟩ := Language.mem_mul.1 member
  have quoted := head_rest_of_takes (p := fun y => !isQuote y)
    (beginsOutside_mul (beginsOutside_oneOf (by simp)) C) takes
  have := takes_offset_le takes
  by_contra less
  -- the later quote would stand in the closing part of the first
  obtain ⟨z, parts, rest⟩ := between.prefix reads (by have := reads.2; have := between.2; omega)
  cases u with
  | nil => exact later rfl
  | cons y u =>
    cases z with
    | nil =>
      obtain rfl := Cursor.reads_nil_iff.1 rest
      omega
    | cons z v =>
      have z_quote := quoted z (by rw [rest.1]; rfl)
      have close_parts : w = u ++ z :: v := (List.cons.inj parts).2
      have z_inside := closing.no_quote w close_w z (by simp [close_parts])
      simp [z_inside] at z_quote

theorem finds_readSource (marker : String) {C : Language Char} (closing : Closing C)
    {close : Cursor → Option Cursor} (close_iff : ∀ {c d}, Takes C c d ↔ close c = some d)
    (capture : Span → Span → Capture) (start : Nat) :
    Finds (· ≤ ·) Prod.snd (readSource marker close capture (fun x d => some (x, d)) start)
      (sourceTail marker C) := by
  have paths (path : Cursor) := finds_pathEnd closing close_iff fun s d =>
    capture ⟨start, d.offset⟩ ⟨path.offset, s.offset⟩
  have opened := finds_oneOf_mul isQuote fun _ => finds_from paths
  have spaced := finds_run_mul (beginsOutside_mul
    (beginsOutside_oneOf fun _ => not_isBlank_of_isQuote) _) opened
  exact finds_exactly_mul marker spaced

theorem finds_source (marker : String) (h : Marker marker.toList) {C : Language Char}
    (closing : Closing C) {close : Cursor → Option Cursor}
    (close_iff : ∀ {c d}, Takes C c d ↔ close c = some d) (capture : Span → Span → Capture)
    (start : Nat) :
    Finds (· ≤ ·) Prod.snd (fun c => c.firstAlong (fun _ => true)
      (readSource marker close capture (fun x d => some (x, d)) start))
      (anything * sourceTail marker C) := by
  refine finds_firstAlong (finds_readSource marker closing close_iff capture start) ?_
  intro c e d x u best between later _ takes
  obtain ⟨w, whole, reads⟩ := best.1
  obtain ⟨v, inner, reads'⟩ := takes
  by_contra less
  have through := between.append reads'
  obtain ⟨z, parts, rest⟩ := through.prefix reads (by have := through.2; have := reads.2; omega)
  obtain rfl := sourceTail_not_inside h closing whole inner parts later
  have := rest.2
  simp only [List.length_nil] at this
  omega

theorem takes_blanks_anything_iff (outside : BeginsOutside isBlank L) {c d : Cursor} :
    Takes (runSome isBlank * (anything * L)) c d ↔
      ∃ e, c.skipSome? isBlank = some e ∧ Takes (anything * L) e d := by
  rw [takes_mul_iff]
  constructor
  · rintro ⟨e, ⟨g, ⟨nonempty, blank⟩, reads⟩, takes⟩
    obtain ⟨f, ⟨a, _, reads'⟩, takes⟩ := takes_mul_iff.1 takes
    have stop := head_rest_of_takes outside takes
    -- the blanks go on at most to where the rest begins
    obtain ⟨u, skipped, inside, beyond⟩ :=
      Cursor.skip_eq_iff.1 (rfl : c.skip isBlank = c.skip isBlank)
    have through := reads.append reads'
    have reach : g.length ≤ u.length := by
      by_contra less
      obtain ⟨v, rfl, rest⟩ := skipped.prefix reads (by omega)
      cases v with
      | nil => simp at less
      | cons x v =>
        have := beyond x (by rw [rest.1]; rfl)
        simp [blank x (by simp)] at this
    have bound : u.length ≤ (g ++ a).length := by
      by_contra less
      obtain ⟨v, rfl, rest⟩ := through.prefix skipped (by omega)
      cases v with
      | nil => simp at less
      | cons x v =>
        have := stop x (by rw [rest.1]; rfl)
        simp [inside x (by simp)] at this
    obtain ⟨v, _, rest⟩ := skipped.prefix through bound
    refine ⟨c.skip isBlank, Cursor.skipSome?_eq_some_iff.2 ⟨u, skipped, ?_, inside, beyond⟩,
      takes_mul_iff.2 ⟨f, ⟨v, fun _ _ => rfl, rest⟩, takes⟩⟩
    rintro rfl
    exact nonempty (List.length_eq_zero_iff.1 (by simpa using reach))
  · rintro ⟨e, skipped, takes⟩
    obtain ⟨u, reads, nonempty, blank, _⟩ := Cursor.skipSome?_eq_some_iff.1 skipped
    exact ⟨e, ⟨u, ⟨nonempty, blank⟩, reads⟩, takes⟩

theorem written_importFrom : Form.importFrom.written = exactly "import" * (runSome isBlank *
    (anything * sourceTail "from" (maybe (exactly ";") * exactly "\n"))) := by
  simp only [Form.written, Form.parts, List.prod_cons, List.prod_nil, mul_one, sourceTail]

theorem finds_importFrom : Finds (· ≤ ·) Prod.snd Form.importFrom.at? Form.importFrom.written := by
  have tail (start : Nat) :=
    finds_source "from" marker_from closing_lineEnd takes_lineEnd_iff .importFrom start
  have opening : BeginsOutside isBlank
      (sourceTail "from" (maybe (exactly ";") * exactly "\n")) :=
    beginsOutside_mul (beginsOutside_exactly ⟨'f', rfl, rfl⟩) _
  have all := finds_from fun c => finds_exactly_mul "import"
    (finds_bind (takes_blanks_anything_iff opening) (tail c.offset))
  have read : Form.importFrom.at? = fun c => (word "import" c).bind fun d =>
      (d.skipSome? isBlank).bind fun d => d.firstAlong (fun _ => true)
        (readSource "from" lineEnd .importFrom (fun x d => some (x, d)) c.offset) := by
    funext c
    rw [Form.at?, Form.read, readImport_eq]
  rw [read, written_importFrom]
  exact all

theorem finds_require : Finds (· ≤ ·) Prod.snd Form.require.at? Form.require.written := by
  have tail (start : Nat) :=
    finds_source "require(" marker_require closing_callEnd takes_callEnd_iff .require start
  have all := finds_from fun c => finds_exactly_mul "const" (tail c.offset)
  have read : Form.require.at? = fun c => (word "const" c).bind fun d =>
      d.firstAlong (fun _ => true)
        (readSource "require(" callEnd .require (fun x d => some (x, d)) c.offset) := by
    funext c
    rw [Form.at?, Form.read, readRequire_eq]
  have written : Form.require.written = exactly "const" * (anything * sourceTail "require("
      (run isBlank * (exactly ")" * (maybe (exactly ";") * exactly "\n")))) := by
    simp only [Form.written, Form.parts, List.prod_cons, List.prod_nil, mul_one, sourceTail]
  rw [read, written]
  exact all

end SourceSpecs.Declaration
