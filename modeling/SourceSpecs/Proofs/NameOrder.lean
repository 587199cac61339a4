import Mathlib.Data.String.Basic
import SourceSpecs.Text.Names
/-!
Names in ascending order. Sorting a list of names gives each of them once, and the same list however
the names were given.
-/
namespace SourceSpecs.Text

/-- The names ascend in the order of code points, so none is given twice. -/
def Ascending (names : List String) : Prop := names.Pairwise (· < ·)

theorem Ascending.insertName {n : String} {names : List String} (h : Ascending names) :
    Ascending (insertName n names) := by
  induction names with
  | nil => exact List.pairwise_singleton _ n
  | cons m rest ih =>
    obtain ⟨above, tail⟩ := List.pairwise_cons.1 h
    unfold Text.insertName
    split
    · rename_i less
      apply List.Pairwise.cons _ h
      intro x member
      rcases List.mem_cons.1 member with rfl | later
      · exact less
      · exact String.lt_trans less (above x later)
    · rename_i not_less
      split
      · exact h
      · rename_i apart
        have greater : m < n := lt_of_le_of_ne (not_lt.1 not_less) (Ne.symm apart)
        apply List.Pairwise.cons _ (ih tail)
        intro x member
        rcases mem_insertName.1 member with rfl | later
        · exact greater
        · exact above x later

theorem ascending_sortNames (names : List String) : Ascending (sortNames names) := by
  induction names with
  | nil => exact .nil
  | cons n rest ih => exact ih.insertName

theorem Ascending.eq_of_mem_iff {names names' : List String} (h : Ascending names)
    (h' : Ascending names') (same : ∀ n, n ∈ names ↔ n ∈ names') : names = names' := by
  have apart : names.Nodup := h.imp fun less => ne_of_lt less
  have apart' : names'.Nodup := h'.imp fun less => ne_of_lt less
  apply ((List.perm_ext_iff_of_nodup apart apart').2 same).eq_of_pairwise _ h h'
  intro a b _ _ less greater
  exact absurd (String.lt_trans less greater) (String.lt_irrefl a)

theorem sortNames_of_ascending {names : List String} (h : Ascending names) : sortNames names = names :=
  (ascending_sortNames names).eq_of_mem_iff h fun _ => mem_sortNames

end SourceSpecs.Text
