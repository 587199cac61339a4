import SourceSpecs.Text.Lines
/-!
The common indent of a text. A text with a line that is not indented has none, and stays as it is.
-/
namespace SourceSpecs.Text

theorem pieces_append (mark : Char) (u v : List Char) :
    pieces mark (u ++ mark :: v) = pieces mark u ++ pieces mark v := by
  induction u with
  | nil => exact pieces_mark mark v
  | cons c u ih =>
    by_cases h : c = mark
    · rw [h, List.cons_append, pieces_mark, pieces_mark, ih, List.cons_append]
    · obtain ⟨piece, more, here, there⟩ := pieces_cons h u
      obtain ⟨piece', more', here', there'⟩ := pieces_cons h (u ++ mark :: v)
      rw [ih, here, List.cons_append] at here'
      obtain ⟨rfl, rfl⟩ := List.cons.inj here'
      rw [List.cons_append, there', there, List.cons_append]

theorem exists_line {t u v : List Char} {x : Char} (parts : t = u ++ x :: v) (not_break : x ≠ '\n')
    (start : u = [] ∨ u.getLast? = some '\n') : ∃ line, x :: line ∈ lines t := by
  obtain ⟨piece, more, _, first⟩ := pieces_cons not_break v
  rcases start with rfl | last
  · exact ⟨piece, by rw [lines, parts, List.nil_append, first]; exact List.mem_cons_self⟩
  · obtain ⟨w, rfl⟩ := List.getLast?_eq_some_iff.1 last
    refine ⟨piece, ?_⟩
    rw [lines, parts, List.append_assoc, List.singleton_append, pieces_append, first]
    exact List.mem_append_right _ List.mem_cons_self

theorem commonIndent?_eq_zero {ls : List (List Char)} {x : Char} {line : List Char}
    (member : x :: line ∈ ls) (not_blank : isBlank x = false) : commonIndent? ls = some 0 := by
  rw [commonIndent?, List.min?_eq_some_iff]
  refine ⟨List.mem_map.2 ⟨x :: line, ?_, ?_⟩, fun n _ => Nat.zero_le n⟩
  · simp [List.mem_filter, member, isBlankLine, not_blank]
  · simp [indentOf, not_blank]

theorem dedent_of_marked_line {t line : List Char} {x : Char} (member : x :: line ∈ lines t)
    (not_blank : isBlank x = false) : dedent t = t := by
  have unchanged : (lines t).map (List.drop 0) = lines t := List.map_id (lines t)
  rw [dedent, dedentLines, commonIndent?_eq_zero member not_blank]
  exact (congrArg unlines unchanged).trans (unlines_lines t)

theorem dedent_eq_self {t u v : List Char} {x : Char} (parts : t = u ++ x :: v)
    (start : u = [] ∨ u.getLast? = some '\n') (not_blank : isBlank x = false) : dedent t = t := by
  have not_break : x ≠ '\n' := by
    rintro rfl
    exact absurd not_blank (by decide)
  obtain ⟨line, member⟩ := exists_line parts not_break start
  exact dedent_of_marked_line member not_blank

end SourceSpecs.Text
