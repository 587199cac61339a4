import Mathlib.Data.List.TakeWhile
import SourceSpecs.Proofs.Margin
/-!
The text without its common indent, line by line. Every line that is not blank loses the same number
of blanks, some line then begins with a mark, and a blank line loses as many characters as it has of
them. So nothing is left to cut a second time.
-/
namespace SourceSpecs.Text

def BeginsMarked (line : List Char) : Prop := ∃ x ∈ line.head?, isBlank x = false

/-- What is left of a line without an indent of `k`. -/
structure CutBy (k : Nat) (line rest : List Char) : Prop where
  marked : isBlankLine line = false →
    ∃ indent, indent.length = k ∧ (∀ x ∈ indent, isBlank x = true) ∧ line = indent ++ rest
  blank : isBlankLine line = true → rest = line.drop (min k line.length)

section Lines

variable {k : Nat} {line : List Char} {ls : List (List Char)}

theorem commonIndent?_eq_none_iff :
    commonIndent? ls = none ↔ ∀ line ∈ ls, isBlankLine line = true := by
  simp [commonIndent?]

theorem commonIndent?_eq_some_iff :
    commonIndent? ls = some k ↔
      (∃ line ∈ ls, isBlankLine line = false ∧ indentOf line = k) ∧
        ∀ line ∈ ls, isBlankLine line = false → k ≤ indentOf line := by
  simp only [commonIndent?, List.min?_eq_some_iff, List.mem_map, List.mem_filter,
    Bool.not_eq_true', and_assoc]
  refine and_congr_right fun _ => ⟨?_, ?_⟩
  · intro bound line member marked
    exact bound _ ⟨line, member, marked, rfl⟩
  · rintro bound _ ⟨line, member, marked, rfl⟩
    exact bound line member marked

theorem beginsMarked_drop (marked : isBlankLine line = false) :
    BeginsMarked (line.drop (indentOf line)) := by
  obtain ⟨x, member, not_blank⟩ := List.all_eq_false.1 marked
  have behind : line.drop (indentOf line) = line.dropWhile isBlank := by
    have split := List.takeWhile_append_dropWhile (p := isBlank) (l := line)
    exact (congrArg (List.drop (indentOf line)) split.symm).trans List.drop_left
  rw [BeginsMarked, behind]
  cases rest : line.dropWhile isBlank with
  | nil => exact absurd (List.dropWhile_eq_nil_iff.1 rest x member) not_blank
  | cons y rest' => exact ⟨y, rfl, not_isBlank_head_trimStart rest⟩

theorem cutBy_drop (within : isBlankLine line = false → k ≤ indentOf line) :
    CutBy k line (line.drop k) where
  marked := by
    intro marked
    have le := within marked
    have whole : indentOf line ≤ line.length := (List.takeWhile_prefix _).length_le
    refine ⟨line.take k, ?_, ?_, (List.take_append_drop k line).symm⟩
    · rw [List.length_take]
      omega
    · intro x member
      have reach : line.take k <+: line.takeWhile isBlank :=
        List.prefix_of_prefix_length_le (List.take_prefix k line) (List.takeWhile_prefix _)
          (by rw [List.length_take]; exact Nat.le_trans (Nat.min_le_left _ _) le)
      exact List.mem_takeWhile_imp (reach.subset member)
  blank := by
    intro _
    rcases Nat.le_total k line.length with le | le
    · rw [Nat.min_eq_left le]
    · rw [Nat.min_eq_right le, List.drop_length, List.drop_eq_nil_of_le le]

theorem dedentLines_of_blank (blank : ∀ line ∈ ls, isBlankLine line = true) :
    dedentLines ls = ls.map fun _ => [] := by
  rw [dedentLines, commonIndent?_eq_none_iff.2 blank]

theorem dedentLines_of_marked (marked : ∃ line ∈ ls, isBlankLine line = false) :
    ∃ k, List.Forall₂ (CutBy k) ls (dedentLines ls) ∧ ∃ rest ∈ dedentLines ls, BeginsMarked rest := by
  cases least : commonIndent? ls with
  | none =>
    obtain ⟨line, member, not_blank⟩ := marked
    rw [commonIndent?_eq_none_iff.1 least line member] at not_blank
    cases not_blank
  | some k =>
    obtain ⟨⟨line, member, not_blank, reached⟩, bound⟩ := commonIndent?_eq_some_iff.1 least
    have cut : dedentLines ls = ls.map (List.drop k) := by rw [dedentLines, least]
    rw [cut]
    refine ⟨k, ?_, line.drop k, List.mem_map_of_mem member, reached ▸ beginsMarked_drop not_blank⟩
    rw [List.forall₂_map_right_iff]
    exact List.forall₂_same.2 fun line member => cutBy_drop (bound line member)

end Lines

section Texts

variable {t : List Char}

theorem blank_or_marked (ls : List (List Char)) :
    (∀ line ∈ ls, isBlankLine line = true) ∨ ∃ line ∈ ls, isBlankLine line = false := by
  by_cases blank : ∀ line ∈ ls, isBlankLine line = true
  · exact Or.inl blank
  · simp only [not_forall, Bool.not_eq_true] at blank
    obtain ⟨line, member, marked⟩ := blank
    exact Or.inr ⟨line, member, marked⟩

theorem lines_dedent_of_blank (blank : ∀ line ∈ lines t, isBlankLine line = true) :
    ∀ line ∈ lines (dedent t), line = [] := by
  intro line member
  rw [lines_dedent, dedentLines_of_blank blank] at member
  obtain ⟨_, _, rfl⟩ := List.mem_map.1 member
  rfl

theorem dedent_of_beginsMarked (h : ∃ line ∈ lines t, BeginsMarked line) : dedent t = t := by
  obtain ⟨line, member, x, first, not_blank⟩ := h
  obtain ⟨rest, rfl⟩ : ∃ rest, line = x :: rest := List.head?_eq_some_iff.1 first
  exact dedent_of_marked_line member not_blank

theorem dedent_of_empty_lines (empty : ∀ line ∈ lines t, line = []) : dedent t = t := by
  have blank : ∀ line ∈ lines t, isBlankLine line = true := by
    intro line member
    rw [empty line member]
    rfl
  have same : (lines t).map (fun _ => []) = lines t := by
    refine (List.map_congr_left fun line member => ?_).trans (List.map_id (lines t))
    exact (empty line member).symm
  rw [dedent, dedentLines_of_blank blank, same, unlines_lines]

/-- Nothing is cut off just those texts that have a mark at the margin, or nothing to cut. -/
theorem dedent_eq_self_iff :
    dedent t = t ↔ (∃ line ∈ lines t, BeginsMarked line) ∨ ∀ line ∈ lines t, line = [] := by
  constructor
  · intro same
    rcases blank_or_marked (lines t) with blank | marked
    · have empty := lines_dedent_of_blank blank
      rw [same] at empty
      exact Or.inr empty
    · obtain ⟨_, _, begins⟩ := dedentLines_of_marked marked
      rw [← lines_dedent, same] at begins
      exact Or.inl begins
  · rintro (begins | empty)
    · exact dedent_of_beginsMarked begins
    · exact dedent_of_empty_lines empty

theorem dedent_dedent (t : List Char) : dedent (dedent t) = dedent t := by
  rw [dedent_eq_self_iff]
  rcases blank_or_marked (lines t) with blank | marked
  · exact Or.inr (lines_dedent_of_blank blank)
  · obtain ⟨_, _, begins⟩ := dedentLines_of_marked marked
    exact Or.inl (by rw [lines_dedent]; exact begins)

/-- Exactly the common indent is removed. All lines stay, those with a mark lose the same number of
    blanks, one of them then begins with its mark, and a blank line loses what it has of that number.
    Doing it again changes nothing, and the texts that stay as they are have a mark at the margin or
    only empty lines. -/
theorem dedent_removes_indent (t : List Char) :
    (lines (dedent t)).length = (lines t).length ∧
    ((∃ line ∈ lines t, isBlankLine line = false) →
      ∃ k, List.Forall₂ (CutBy k) (lines t) (lines (dedent t)) ∧
        ∃ line ∈ lines (dedent t), BeginsMarked line) ∧
    ((∀ line ∈ lines t, isBlankLine line = true) → ∀ line ∈ lines (dedent t), line = []) ∧
    dedent (dedent t) = dedent t ∧
    (dedent t = t ↔ (∃ line ∈ lines t, BeginsMarked line) ∨ ∀ line ∈ lines t, line = []) := by
  refine ⟨?_, ?_, lines_dedent_of_blank, dedent_dedent t, dedent_eq_self_iff⟩
  · rw [lines_dedent, length_dedentLines]
  · intro marked
    rw [lines_dedent]
    exact dedentLines_of_marked marked

end Texts

end SourceSpecs.Text
