import Mathlib.Data.List.Forall2
/-!
Lists that are related entry by entry: what is made of them is the same, and what is found in one is
related to what is found in the other.
-/
namespace SourceSpecs

variable {α β γ : Type} {R : α → β → Prop} {as : List α} {bs : List β}

theorem map_eq_of_forall₂ {f : α → γ} {g : β → γ} (same : ∀ a b, R a b → f a = g b)
    (h : List.Forall₂ R as bs) : as.map f = bs.map g := by
  rw [← List.forall₂_eq_eq_eq]
  exact List.rel_map same h

theorem flatMap_eq_of_forall₂ {f : α → List γ} {g : β → List γ} (same : ∀ a b, R a b → f a = g b)
    (h : List.Forall₂ R as bs) : as.flatMap f = bs.flatMap g := by
  rw [List.flatMap_def, List.flatMap_def, map_eq_of_forall₂ same h]

theorem forall₂_find? {p : α → Bool} {q : β → Bool} (same : ∀ a b, R a b → p a = q b)
    (h : List.Forall₂ R as bs) : Option.Rel R (as.find? p) (bs.find? q) := by
  induction h with
  | nil => exact .none
  | cons head _ ih =>
    rw [List.find?_cons, List.find?_cons, same _ _ head]
    split
    · exact .some head
    · exact ih

theorem exists_of_forall₂ {a : α} (h : List.Forall₂ R as bs) (member : a ∈ as) :
    ∃ b ∈ bs, R a b := by
  induction h with
  | nil => cases member
  | cons head _ ih =>
    rcases List.mem_cons.1 member with rfl | later
    · exact ⟨_, List.mem_cons_self, head⟩
    · obtain ⟨b, inside, related⟩ := ih later
      exact ⟨b, List.mem_cons_of_mem _ inside, related⟩

theorem exists_iff_of_forall₂ {P : α → Prop} {Q : β → Prop} (all : List.Forall₂ R as bs)
    (same : ∀ a b, R a b → (Q b ↔ P a)) : (∃ b ∈ bs, Q b) ↔ ∃ a ∈ as, P a := by
  induction all with
  | nil => simp
  | cons related _ ih => simp only [List.exists_mem_cons_iff, same _ _ related, ih]

theorem getElem?_of_forall₂ {a : α} {i : Nat} (h : List.Forall₂ R as bs) (here : as[i]? = some a) :
    ∃ b, bs[i]? = some b ∧ R a b := by
  induction h generalizing i with
  | nil => cases here
  | cons head _ ih =>
    cases i with
    | zero =>
      obtain rfl := Option.some.inj here
      exact ⟨_, rfl, head⟩
    | succ i => exact ih here

theorem exists_forall₂_iff : (∃ ys, List.Forall₂ R as ys) ↔ ∀ a ∈ as, ∃ b, R a b := by
  induction as with
  | nil => simp
  | cons a as ih =>
    rw [List.forall_mem_cons, ← ih]
    constructor
    · rintro ⟨_, _ | ⟨head, rest⟩⟩
      exact ⟨⟨_, head⟩, _, rest⟩
    · rintro ⟨⟨b, head⟩, bs, rest⟩
      exact ⟨b :: bs, .cons head rest⟩

theorem forall₂_filterMap {p : α → Bool} {f : α → Option β}
    (kept : ∀ a, p a = true → ∃ b, f a = some b ∧ R a b) (left : ∀ a, p a = false → f a = none)
    (as : List α) : List.Forall₂ R (as.filter p) (as.filterMap f) := by
  induction as with
  | nil => exact .nil
  | cons a as ih =>
    by_cases pa : p a = true
    · obtain ⟨b, found, related⟩ := kept a pa
      rw [List.filter_cons_of_pos pa, List.filterMap_cons_some found]
      exact .cons related ih
    · rw [List.filter_cons_of_neg pa, List.filterMap_cons_none (left a (by simpa using pa))]
      exact ih

end SourceSpecs
