import SourceSpecs.Text.Cursor
/-!
What the reading steps of a cursor do to its text. Every step reads a piece of the text and leaves
the cursor behind it; a step that looks for a position finds the nearest or the farthest one that
its class of characters reaches.
-/
namespace SourceSpecs.Cursor

def Reads (c : Cursor) (u : List Char) (d : Cursor) : Prop :=
  c.rest = u ++ d.rest ∧ d.offset = c.offset + u.length

theorem reads_of_rest {c : Cursor} {u v : List Char} (e : c.rest = u ++ v) :
    c.Reads u ⟨c.offset + u.length, v⟩ := ⟨e, rfl⟩

theorem Reads.append {a b c : Cursor} {u v : List Char} (h : a.Reads u b) (k : b.Reads v c) :
    a.Reads (u ++ v) c :=
  ⟨by rw [h.1, k.1, List.append_assoc], by rw [k.2, h.2, List.length_append, Nat.add_assoc]⟩

theorem Reads.unique {a b c : Cursor} {u : List Char} (h : a.Reads u b) (k : a.Reads u c) :
    b = c := by
  have rest := List.append_cancel_left (h.1.symm.trans k.1)
  have offset := h.2.trans k.2.symm
  cases b; cases c
  simp_all

theorem Reads.prefix {a b c : Cursor} {u v : List Char} (h : a.Reads u b) (k : a.Reads v c)
    (le : u.length ≤ v.length) : ∃ w, v = u ++ w ∧ b.Reads w c := by
  have parts := h.1.symm.trans k.1
  obtain ⟨w, rfl⟩ := List.prefix_of_prefix_length_le ⟨b.rest, parts⟩ ⟨c.rest, rfl⟩ le
  refine ⟨w, rfl, ?_, ?_⟩
  · rw [List.append_assoc] at parts
    exact List.append_cancel_left parts
  · rw [k.2, h.2, List.length_append, Nat.add_assoc]

theorem reads_nil (c : Cursor) : c.Reads [] c := ⟨rfl, rfl⟩

theorem reads_nil_iff {c d : Cursor} : c.Reads [] d ↔ c = d :=
  ⟨fun h => (reads_nil c).unique h, fun h => h ▸ reads_nil c⟩

theorem reads_cons_iff {x : Char} {rest u : List Char} {offset : Nat} {d : Cursor} :
    Reads ⟨offset, x :: rest⟩ (x :: u) d ↔ Reads ⟨offset + 1, rest⟩ u d := by
  simp only [Reads, List.cons_append, List.cons.injEq, true_and, List.length_cons]
  rw [show offset + (u.length + 1) = offset + 1 + u.length by omega]

theorem not_reads_of_rest_nil {c d : Cursor} {u : List Char} (empty : c.rest = [])
    (h : c.Reads u d) : u = [] := by
  have := h.1
  rw [empty] at this
  exact (List.append_eq_nil_iff.1 this.symm).1

theorem past?_eq_some_iff {word : List Char} {c d : Cursor} :
    c.past? word = some d ↔ c.Reads word d := by
  simp only [past?, Option.map_eq_some_iff, after?_eq_some_iff]
  constructor
  · rintro ⟨rest, e, rfl⟩
    exact reads_of_rest e
  · intro h
    exact ⟨d.rest, h.1, (reads_of_rest h.1).unique h⟩

theorem skip_eq_iff {p : Char → Bool} {c d : Cursor} :
    c.skip p = d ↔
      ∃ u, c.Reads u d ∧ (∀ x ∈ u, p x = true) ∧ ∀ x ∈ d.rest.head?, p x = false := by
  constructor
  · rintro rfl
    refine ⟨c.rest.takeWhile p, ⟨by simp [skip], rfl⟩, fun x member => ?_, fun x first => ?_⟩
    · exact List.all_eq_true.1 List.all_takeWhile x member
    · have : ¬ p x = true := by
        intro px
        have := List.head?_dropWhile_not p c.rest
        simp only [skip, Option.mem_def] at first
        simp [first, px] at this
      simpa using this
  · rintro ⟨u, h, inside, outside⟩
    have stop : d.rest.takeWhile p = [] ∧ d.rest.dropWhile p = d.rest := by
      cases e : d.rest with
      | nil => exact ⟨rfl, rfl⟩
      | cons x v => simp [outside x (by simp [e])]
    have taken : c.rest.takeWhile p = u := by
      rw [h.1, List.takeWhile_append_of_pos inside, stop.1, List.append_nil]
    have left : c.rest.dropWhile p = d.rest := by
      rw [h.1, List.dropWhile_append_of_pos inside, stop.2]
    cases d
    simp_all [skip, Reads]

theorem skipSome?_eq_some_iff {p : Char → Bool} {c d : Cursor} :
    c.skipSome? p = some d ↔
      ∃ u, c.Reads u d ∧ u ≠ [] ∧ (∀ x ∈ u, p x = true) ∧ ∀ x ∈ d.rest.head?, p x = false := by
  have skipped : c.skipSome? p = some d ↔ (∃ x ∈ c.rest.head?, p x = true) ∧ c.skip p = d := by
    unfold skipSome?
    cases c.rest with
    | nil => simp
    | cons x rest => by_cases h : p x = true <;> simp [h]
  rw [skipped, skip_eq_iff]
  constructor
  · rintro ⟨⟨x, first, px⟩, u, h, inside, outside⟩
    refine ⟨u, h, ?_, inside, outside⟩
    rintro rfl
    have := outside x (by rw [← (reads_nil_iff.1 h)]; exact first)
    simp_all
  · rintro ⟨u, h, nonempty, inside, outside⟩
    refine ⟨?_, u, h, inside, outside⟩
    cases u with
    | nil => exact absurd rfl nonempty
    | cons x u => exact ⟨x, by rw [h.1]; rfl, inside x List.mem_cons_self⟩

theorem next?_eq_some_iff {p : Char → Bool} {c d : Cursor} {x : Char} :
    c.next? p = some (x, d) ↔ c.Reads [x] d ∧ p x = true := by
  obtain ⟨offset, rest⟩ := c
  obtain ⟨offset', rest'⟩ := d
  cases rest with
  | nil => simp [next?, Reads]
  | cons y rest =>
    by_cases h : p y = true
    · simp only [next?, h, ↓reduceIte, Option.some.injEq, Prod.mk.injEq, Cursor.mk.injEq, Reads,
        List.cons_append, List.nil_append, List.cons.injEq, List.length_singleton]
      constructor
      · rintro ⟨rfl, rfl, rfl⟩
        exact ⟨⟨⟨rfl, rfl⟩, rfl⟩, h⟩
      · rintro ⟨⟨⟨rfl, rfl⟩, rfl⟩, _⟩
        exact ⟨rfl, rfl, rfl⟩
    · simp only [next?, h, Bool.false_eq_true, ↓reduceIte, reduceCtorEq, Reads, List.cons_append,
        List.nil_append, List.cons.injEq, false_iff]
      rintro ⟨⟨⟨rfl, _⟩, _⟩, px⟩
      exact h px

variable {α : Type} {p : Char → Bool} {k : Cursor → Option α}

theorem firstAlong_cons (offset : Nat) (x : Char) (rest : List Char) :
    firstAlong p k ⟨offset, x :: rest⟩ =
      (k ⟨offset, x :: rest⟩).or
        (if p x = true then firstAlong p k ⟨offset + 1, rest⟩ else none) := by
  simp only [firstAlong, firstAlongFrom]
  split <;> simp_all

theorem lastAlong_cons (offset : Nat) (x : Char) (rest : List Char) :
    lastAlong p k ⟨offset, x :: rest⟩ =
      (if p x = true then lastAlong p k ⟨offset + 1, rest⟩ else none).or
        (k ⟨offset, x :: rest⟩) := by
  simp only [lastAlong, lastAlongFrom]
  split <;> simp_all

theorem exists_of_firstAlong {c : Cursor} {a : α} (h : c.firstAlong p k = some a) :
    ∃ u d, c.Reads u d ∧ (∀ x ∈ u, p x = true) ∧ k d = some a ∧
      ∀ v e, c.Reads v e → v.length < u.length → k e = none := by
  obtain ⟨offset, rest⟩ := c
  induction rest generalizing offset with
  | nil => exact ⟨[], _, reads_nil _, by simp, h, by simp⟩
  | cons x rest ih =>
    rw [firstAlong_cons, Option.or_eq_some_iff] at h
    rcases h with here | ⟨none_here, later⟩
    · exact ⟨[], _, reads_nil _, by simp, here, by simp⟩
    · by_cases px : p x = true
      · rw [if_pos px] at later
        obtain ⟨u, d, reads, inside, found, before⟩ := ih (offset + 1) later
        refine ⟨x :: u, d, reads_cons_iff.2 reads, by simpa [px] using inside, found, ?_⟩
        intro v e reads_v less
        cases v with
        | nil => exact reads_nil_iff.1 reads_v ▸ none_here
        | cons y v =>
          obtain rfl : x = y := (List.cons.inj reads_v.1).1
          exact before v e (reads_cons_iff.1 reads_v) (by simpa using less)
      · simp [px] at later

theorem firstAlong_ne_none {c d : Cursor} {u : List Char} (reads : c.Reads u d)
    (inside : ∀ x ∈ u, p x = true) (found : k d ≠ none) : c.firstAlong p k ≠ none := by
  obtain ⟨offset, rest⟩ := c
  induction rest generalizing offset u with
  | nil =>
    obtain rfl := not_reads_of_rest_nil rfl reads
    obtain rfl := reads_nil_iff.1 reads
    exact found
  | cons x rest ih =>
    rw [firstAlong_cons]
    cases u with
    | nil =>
      obtain rfl := reads_nil_iff.1 reads
      simp [found]
    | cons y u =>
      obtain rfl : x = y := (List.cons.inj reads.1).1
      have later := ih (fun z member => inside z (List.mem_cons_of_mem x member)) (offset + 1)
        (reads_cons_iff.1 reads)
      simp [inside x (by simp), later]

theorem firstAlong_eq_some_iff {c : Cursor} {a : α} :
    c.firstAlong p k = some a ↔
      ∃ u d, c.Reads u d ∧ (∀ x ∈ u, p x = true) ∧ k d = some a ∧
        ∀ v e, c.Reads v e → v.length < u.length → k e = none := by
  refine ⟨exists_of_firstAlong, ?_⟩
  rintro ⟨u, d, reads, inside, found, before⟩
  have some_found : c.firstAlong p k ≠ none := firstAlong_ne_none reads inside (by simp [found])
  obtain ⟨b, result⟩ := Option.ne_none_iff_exists'.1 some_found
  obtain ⟨v, e, reads', _, found', before'⟩ := exists_of_firstAlong result
  rcases Nat.lt_trichotomy v.length u.length with less | same | less
  · simp [before v e reads' less] at found'
  · obtain ⟨w, rfl, reads_w⟩ := reads'.prefix reads (Nat.le_of_eq same)
    obtain rfl : w = [] := List.length_eq_zero_iff.1 (by simpa using same.symm)
    obtain rfl := reads_nil_iff.1 reads_w
    rw [result, ← found', found]
  · simp [before' u d reads less] at found

theorem lastAlong_ne_none {c d : Cursor} {u : List Char} (reads : c.Reads u d)
    (inside : ∀ x ∈ u, p x = true) (found : k d ≠ none) : c.lastAlong p k ≠ none := by
  obtain ⟨offset, rest⟩ := c
  induction rest generalizing offset u with
  | nil =>
    obtain rfl := not_reads_of_rest_nil rfl reads
    obtain rfl := reads_nil_iff.1 reads
    exact found
  | cons x rest ih =>
    rw [lastAlong_cons]
    cases u with
    | nil =>
      obtain rfl := reads_nil_iff.1 reads
      simp [found]
    | cons y u =>
      obtain rfl : x = y := (List.cons.inj reads.1).1
      have later := ih (fun z member => inside z (List.mem_cons_of_mem x member)) (offset + 1)
        (reads_cons_iff.1 reads)
      simp [inside x (by simp), later]

theorem exists_of_lastAlong {c : Cursor} {a : α} (h : c.lastAlong p k = some a) :
    ∃ u d, c.Reads u d ∧ (∀ x ∈ u, p x = true) ∧ k d = some a ∧
      ∀ v e, c.Reads v e → (∀ x ∈ v, p x = true) → u.length < v.length → k e = none := by
  obtain ⟨offset, rest⟩ := c
  induction rest generalizing offset with
  | nil =>
    refine ⟨[], _, reads_nil _, by simp, h, fun v e reads _ less => ?_⟩
    simp [not_reads_of_rest_nil rfl reads] at less
  | cons x rest ih =>
    rw [lastAlong_cons, Option.or_eq_some_iff] at h
    rcases h with later | ⟨none_later, here⟩
    · by_cases px : p x = true
      · rw [if_pos px] at later
        obtain ⟨u, d, reads, inside, found, after⟩ := ih (offset + 1) later
        refine ⟨x :: u, d, reads_cons_iff.2 reads, by simpa [px] using inside, found, ?_⟩
        intro v e reads_v inside_v less
        cases v with
        | nil => simp at less
        | cons y v =>
          obtain rfl : x = y := (List.cons.inj reads_v.1).1
          exact after v e (reads_cons_iff.1 reads_v) (fun z member => inside_v z (by simp [member]))
            (by simpa using less)
      · simp [px] at later
    · refine ⟨[], _, reads_nil _, by simp, here, fun v e reads inside less => ?_⟩
      cases v with
      | nil => simp at less
      | cons y v =>
        obtain rfl : x = y := (List.cons.inj reads.1).1
        rw [if_pos (inside x (by simp))] at none_later
        -- a position farther on would have been found first
        have inside_tail : ∀ z ∈ v, p z = true := fun z member =>
          inside z (List.mem_cons_of_mem x member)
        cases found : k e with
        | none => rfl
        | some b =>
          exact absurd none_later
            (lastAlong_ne_none (reads_cons_iff.1 reads) inside_tail (by simp [found]))

end SourceSpecs.Cursor
