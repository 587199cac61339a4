import SourceSpecs.Proofs.WrittenForm
/-!
Readers that find the best word of a language at a cursor. What is best is the end that lies
nearest, or the end that lies farthest. Reading part by part keeps the best end wherever a later
start of the rest does not lead to a better one.
-/
namespace SourceSpecs.Declaration

open Text

/-- A word of the language lies between the cursors, and no other ends better. -/
def Best (better : Nat → Nat → Prop) (L : Language Char) (c d : Cursor) : Prop :=
  Takes L c d ∧ ∀ e, Takes L c e → better d.offset e.offset

/-- The reader finds a best word wherever the language has one. -/
structure Finds {β : Type} (better : Nat → Nat → Prop) (stop : β → Cursor)
    (r : Cursor → Option β) (L : Language Char) : Prop where
  best : ∀ {c b}, r c = some b → Best better L c (stop b)
  found : ∀ {c d}, Takes L c d → r c ≠ none

variable {β γ : Type} {better : Nat → Nat → Prop} {stop : β → Cursor} {r : Cursor → Option β}
  {L : Language Char}

theorem finds_bind {first : Cursor → Option Cursor} {M : Language Char}
    (takes_iff : ∀ {c d}, Takes M c d ↔ ∃ e, first c = some e ∧ Takes L e d)
    (h : Finds better stop r L) : Finds better stop (fun c => (first c).bind r) M where
  best := by
    intro c b found
    obtain ⟨e, read, found⟩ := Option.bind_eq_some_iff.1 found
    refine ⟨takes_iff.2 ⟨e, read, (h.best found).1⟩, fun x takes => ?_⟩
    obtain ⟨e', read', takes⟩ := takes_iff.1 takes
    rw [read] at read'
    exact (h.best found).2 x (Option.some.inj read' ▸ takes)
  found := by
    intro c d takes
    obtain ⟨e, read, takes⟩ := takes_iff.1 takes
    simpa [read] using h.found takes

theorem finds_exactly_mul (w : String) (h : Finds better stop r L) :
    Finds better stop (fun c => (word w c).bind r) (exactly w * L) :=
  finds_bind takes_exactly_mul_iff h

theorem finds_runSome_mul {p : Char → Bool} (outside : BeginsOutside p L)
    (h : Finds better stop r L) :
    Finds better stop (fun c => (c.skipSome? p).bind r) (runSome p * L) :=
  finds_bind (takes_runSome_mul_iff outside) h

theorem finds_run_mul {p : Char → Bool} (outside : BeginsOutside p L) (h : Finds better stop r L) :
    Finds better stop (fun c => r (c.skip p)) (run p * L) where
  best found := by
    simp only [Best, takes_run_mul_iff outside]
    exact h.best found
  found takes := h.found ((takes_run_mul_iff outside).1 takes)

theorem finds_oneOf_mul (p : Char → Bool) {r : Cursor → Cursor → Option β}
    (h : ∀ c, Finds better stop (r c) L) :
    Finds better stop (fun c => (c.next? p).bind fun x => r c x.2) (oneOf p * L) where
  best := by
    intro c b found
    obtain ⟨⟨x, e⟩, next, found⟩ := Option.bind_eq_some_iff.1 found
    have after := (h c).best found
    refine ⟨takes_mul_iff.2 ⟨e, takes_oneOf_iff.2 ⟨x, next⟩, after.1⟩, fun d takes => ?_⟩
    obtain ⟨e', one, takes⟩ := takes_mul_iff.1 takes
    obtain ⟨x', next'⟩ := takes_oneOf_iff.1 one
    rw [next] at next'
    cases next'
    exact after.2 d takes
  found := by
    intro c d takes
    obtain ⟨e, one, takes⟩ := takes_mul_iff.1 takes
    obtain ⟨x, next⟩ := takes_oneOf_iff.1 one
    simpa [next] using (h c).found takes

theorem finds_from {r : Cursor → Cursor → Option β} (h : ∀ c, Finds better stop (r c) L) :
    Finds better stop (fun c => r c c) L where
  best found := (h _).best found
  found takes := (h _).found takes

theorem finds_of_iff {r : Cursor → Option Cursor} (refl : ∀ n, better n n)
    (iff : ∀ {c d}, Takes L c d ↔ r c = some d) : Finds better id r L where
  best := by
    intro c d read
    refine ⟨iff.2 read, fun e takes => ?_⟩
    rw [iff, read] at takes
    exact Option.some.inj takes ▸ refl d.offset
  found takes := by simp [iff.1 takes]

theorem finds_some {r : Cursor → Option Cursor} (f : Cursor → β) (same : ∀ d, stop (f d) = d)
    (h : Finds better id r L) : Finds better stop (fun c => (r c).bind fun d => some (f d)) L where
  best := by
    intro c b found
    obtain ⟨d, read, found⟩ := Option.bind_eq_some_iff.1 found
    obtain rfl := Option.some.inj found
    rw [same]
    exact h.best read
  found := by
    intro c d takes
    obtain ⟨e, read⟩ := Option.ne_none_iff_exists'.1 (h.found takes)
    simp [read]

/-- The nearest start is best, if no later start has a word that ends earlier. -/
theorem finds_firstAlong {p : Char → Bool} (h : Finds (· ≤ ·) stop r L)
    (later : ∀ {c e d x u}, Best (· ≤ ·) L c d → c.Reads u e → u ≠ [] → (∀ y ∈ u, p y = true) →
      Takes L e x → d.offset ≤ x.offset) :
    Finds (· ≤ ·) stop (fun c => c.firstAlong p r) (run p * L) where
  best := by
    intro c b found
    obtain ⟨u, d, reads, inside, found, before⟩ := Cursor.exists_of_firstAlong found
    refine ⟨takes_mul_iff.2 ⟨d, ⟨u, inside, reads⟩, (h.best found).1⟩, fun x takes => ?_⟩
    obtain ⟨e, ⟨v, inside', reads'⟩, takes⟩ := takes_mul_iff.1 takes
    by_cases less : v.length < u.length
    · exact absurd (before v e reads' less) (h.found takes)
    · obtain ⟨w, rfl, between⟩ := reads.prefix reads' (by omega)
      cases w with
      | nil =>
        obtain rfl := Cursor.reads_nil_iff.1 between
        exact (h.best found).2 x takes
      | cons y w =>
        refine later (h.best found) between (by simp) (fun z member => inside' z ?_) takes
        exact List.mem_append_right u member
  found := by
    intro c d takes
    obtain ⟨e, ⟨u, inside, reads⟩, takes⟩ := takes_mul_iff.1 takes
    exact Cursor.firstAlong_ne_none reads inside (h.found takes)

/-- The farthest start is best, if no earlier start has a word that ends later. -/
theorem finds_lastAlong {p : Char → Bool} (h : Finds (· ≥ ·) stop r L)
    (earlier : ∀ {c e d x u}, Takes L c x → c.Reads u e → (∀ y ∈ u, p y = true) →
      Best (· ≥ ·) L e d → x.offset ≤ d.offset) :
    Finds (· ≥ ·) stop (fun c => c.lastAlong p r) (run p * L) where
  best := by
    intro c b found
    obtain ⟨u, d, reads, inside, found, after⟩ := Cursor.exists_of_lastAlong found
    refine ⟨takes_mul_iff.2 ⟨d, ⟨u, inside, reads⟩, (h.best found).1⟩, fun x takes => ?_⟩
    obtain ⟨e, ⟨v, inside', reads'⟩, takes⟩ := takes_mul_iff.1 takes
    by_cases less : u.length < v.length
    · exact absurd (after v e reads' inside' less) (h.found takes)
    · obtain ⟨w, rfl, between⟩ := reads'.prefix reads (by omega)
      exact earlier takes between (fun z member => inside z (List.mem_append_right v member))
        (h.best found)
  found := by
    intro c d takes
    obtain ⟨e, ⟨u, inside, reads⟩, takes⟩ := takes_mul_iff.1 takes
    exact Cursor.lastAlong_ne_none reads inside (h.found takes)

end SourceSpecs.Declaration
