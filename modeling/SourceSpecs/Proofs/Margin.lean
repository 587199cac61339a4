import Mathlib.Data.List.Forall2
import SourceSpecs.Extraction
import SourceSpecs.Proofs.Indent
/-!
Texts that differ in their margin. Each line of the one stands behind as many blanks more, whatever
blanks they are, as any other line. Such texts are one text without its indent, so all that is read
of them is the same.
-/
namespace SourceSpecs.Text

section Pieces

variable {mark : Char} {ps : List (List Char)}

theorem pieces_of_not_mem {piece : List Char} (free : mark ∉ piece) : pieces mark piece = [piece] := by
  induction piece with
  | nil => rfl
  | cons c piece ih =>
    have apart : c ≠ mark := by
      intro same
      exact free (same ▸ List.mem_cons_self)
    obtain ⟨first, more, whole, longer⟩ := pieces_cons apart piece
    rw [ih fun inside => free (List.mem_cons_of_mem c inside)] at whole
    obtain ⟨rfl, rfl⟩ := List.cons.inj whole
    exact longer

theorem pieces_joinPieces (free : ∀ p ∈ ps, mark ∉ p) (some_piece : ps ≠ []) :
    pieces mark (joinPieces mark ps) = ps := by
  induction ps with
  | nil => exact absurd rfl some_piece
  | cons p ps ih =>
    have first := pieces_of_not_mem (free p List.mem_cons_self)
    cases ps with
    | nil =>
      rw [joinPieces, List.intercalate_singleton]
      exact first
    | cons q ps =>
      have later := ih (fun r member => free r (List.mem_cons_of_mem p member)) (by simp)
      rw [joinPieces, List.intercalate_cons_cons, List.append_assoc, List.singleton_append,
        pieces_append, first, List.singleton_append]
      exact congrArg (p :: ·) later

theorem mem_of_mem_pieces {t p : List Char} {c : Char} (member : p ∈ pieces mark t) (inside : c ∈ p) :
    c ∈ t ∧ c ≠ mark := by
  induction t generalizing p with
  | nil =>
    obtain rfl := List.mem_singleton.1 member
    cases inside
  | cons x t ih =>
    by_cases same : x = mark
    · rw [same, pieces_mark] at member
      rcases List.mem_cons.1 member with rfl | later
      · cases inside
      · exact (ih later inside).imp_left (List.mem_cons_of_mem x)
    · obtain ⟨first, more, whole, longer⟩ := pieces_cons same t
      rw [longer] at member
      rcases List.mem_cons.1 member with rfl | later
      · rcases List.mem_cons.1 inside with rfl | behind
        · exact ⟨List.mem_cons_self, same⟩
        · exact (ih (whole ▸ List.mem_cons_self) behind).imp_left (List.mem_cons_of_mem x)
      · exact (ih (whole ▸ List.mem_cons_of_mem first later) inside).imp_left
          (List.mem_cons_of_mem x)

theorem not_mem_of_mem_pieces {t p : List Char} (member : p ∈ pieces mark t) : mark ∉ p :=
  fun inside => (mem_of_mem_pieces member inside).2 rfl

theorem exists_piece_of_last {x : Char} (other : x ≠ mark) (w : List Char) :
    ∃ piece ∈ pieces mark (w ++ [x]), piece.getLast? = some x := by
  induction w with
  | nil =>
    refine ⟨[x], ?_, rfl⟩
    rw [List.nil_append, pieces_of_not_mem (by simpa using other.symm)]
    exact List.mem_singleton_self _
  | cons c w ih =>
    obtain ⟨piece, member, last⟩ := ih
    by_cases same : c = mark
    · rw [List.cons_append, same, pieces_mark]
      exact ⟨piece, List.mem_cons_of_mem _ member, last⟩
    · obtain ⟨first, more, whole, longer⟩ := pieces_cons same (w ++ [x])
      rw [List.cons_append, longer]
      rw [whole] at member
      rcases List.mem_cons.1 member with rfl | later
      · refine ⟨c :: piece, List.mem_cons_self, ?_⟩
        rw [List.getLast?_cons, last]
        rfl
      · exact ⟨piece, List.mem_cons_of_mem _ later, last⟩

theorem joinPieces_sublist {qs : List (List Char)}
    (each : List.Forall₂ List.Sublist ps qs) : (joinPieces mark ps).Sublist (joinPieces mark qs) := by
  induction each with
  | nil => exact List.Sublist.refl _
  | @cons p q ps qs first rest ih =>
    cases rest with
    | nil =>
      rw [joinPieces, joinPieces, List.intercalate_singleton, List.intercalate_singleton]
      exact first
    | cons second rest =>
      rw [joinPieces, joinPieces, List.intercalate_cons_cons, List.intercalate_cons_cons]
      exact (first.append (List.Sublist.refl _)).append ih

end Pieces

theorem exists_cut (ls : List (List Char)) :
    ∃ cut : List Char → List Char, (∀ line, cut line <:+ line) ∧ dedentLines ls = ls.map cut := by
  rw [dedentLines]
  split
  · exact ⟨fun _ => [], fun _ => List.nil_suffix, rfl⟩
  · exact ⟨List.drop _, fun _ => List.drop_suffix _ _, rfl⟩

theorem dedent_sublist (t : List Char) : (dedent t).Sublist t := by
  obtain ⟨cut, suffix, cut_eq⟩ := exists_cut (lines t)
  have each : List.Forall₂ List.Sublist ((lines t).map cut) (lines t) :=
    List.forall₂_map_left_iff.2 (List.forall₂_same.2 fun line _ => (suffix line).sublist)
  have whole : (unlines ((lines t).map cut)).Sublist (unlines (lines t)) := joinPieces_sublist each
  rwa [← cut_eq, unlines_lines] at whole

theorem lines_dedent (t : List Char) : lines (dedent t) = dedentLines (lines t) := by
  obtain ⟨cut, suffix, cut_eq⟩ := exists_cut (lines t)
  rw [dedent, cut_eq]
  refine pieces_joinPieces ?_ ?_
  · intro line member inside
    obtain ⟨whole, found, rfl⟩ := List.mem_map.1 member
    exact not_mem_of_mem_pieces found ((suffix whole).subset inside)
  · intro nothing
    exact pieces_ne_nil '\n' t (List.map_eq_nil_iff.1 nothing)

/-- A line behind a margin of `n` blanks. An empty line may be left without one. -/
inductive Shifted (n : Nat) : List Char → List Char → Prop where
  | margin {m line : List Char} (width : m.length = n) (blank : ∀ x ∈ m, isBlank x = true)
      (inLine : '\n' ∉ m) : Shifted n line (m ++ line)
  | empty : Shifted n [] []

section Shifted

variable {n : Nat} {line line' : List Char} {ls ls' : List (List Char)}

theorem Shifted.isBlankLine (h : Shifted n line line') : isBlankLine line' = isBlankLine line := by
  cases h with
  | margin width blank inLine =>
    rw [Text.isBlankLine, List.all_append, List.all_eq_true.2 blank, Bool.true_and]
    rfl
  | empty => rfl

theorem Shifted.indentOf (h : Shifted n line line') (marked : Text.isBlankLine line = false) :
    indentOf line' = n + indentOf line := by
  cases h with
  | margin width blank inLine =>
    rw [Text.indentOf, List.takeWhile_append_of_pos blank, List.length_append, width]
    rfl
  | empty => cases marked

theorem Shifted.drop (h : Shifted n line line') (k : Nat) : line'.drop (n + k) = line.drop k := by
  cases h with
  | margin width blank inLine => rw [← width, ← List.drop_drop, List.drop_left]
  | empty => rw [List.drop_nil, List.drop_nil]

theorem Shifted.not_mem (h : Shifted n line line') (free : '\n' ∉ line) : '\n' ∉ line' := by
  cases h with
  | margin width blank inLine =>
    intro member
    rcases List.mem_append.1 member with before | behind
    · exact inLine before
    · exact free behind
  | empty => exact List.not_mem_nil

theorem indents_shifted (h : List.Forall₂ (Shifted n) ls ls') :
    (ls'.filter (!isBlankLine ·)).map indentOf =
      ((ls.filter (!isBlankLine ·)).map indentOf).map (n + ·) := by
  induction h with
  | nil => rfl
  | @cons line line' ls ls' first rest ih =>
    by_cases marked : isBlankLine line = false
    · have marked' := first.isBlankLine.trans marked
      rw [List.filter_cons_of_pos (by simp [marked']), List.filter_cons_of_pos (by simp [marked]),
        List.map_cons, List.map_cons, List.map_cons, first.indentOf marked, ih]
    · have blank : isBlankLine line = true := by simpa using marked
      have blank' := first.isBlankLine.trans blank
      rw [List.filter_cons_of_neg (by simp [blank']), List.filter_cons_of_neg (by simp [blank])]
      exact ih

theorem min?_map_add (n : Nat) (ks : List Nat) : (ks.map (n + ·)).min? = ks.min?.map (n + ·) := by
  cases least : ks.min? with
  | none =>
    rw [List.min?_eq_none_iff.1 least]
    rfl
  | some k =>
    obtain ⟨member, bound⟩ := List.min?_eq_some_iff.1 least
    rw [Option.map_some, List.min?_eq_some_iff]
    constructor
    · exact List.mem_map_of_mem member
    · intro b inside
      obtain ⟨j, there, rfl⟩ := List.mem_map.1 inside
      have := bound j there
      omega

theorem commonIndent?_shifted (h : List.Forall₂ (Shifted n) ls ls') :
    commonIndent? ls' = (commonIndent? ls).map (n + ·) := by
  rw [commonIndent?, indents_shifted h, min?_map_add]
  rfl

theorem map_drop_shifted (h : List.Forall₂ (Shifted n) ls ls') (k : Nat) :
    ls'.map (List.drop (n + k)) = ls.map (List.drop k) := by
  induction h with
  | nil => rfl
  | cons first rest ih => rw [List.map_cons, List.map_cons, first.drop k, ih]

/-- The margin goes with the indent, be there lines that count for it or not. -/
theorem dedentLines_shifted (h : List.Forall₂ (Shifted n) ls ls') : dedentLines ls' = dedentLines ls := by
  rw [dedentLines, dedentLines, commonIndent?_shifted h]
  cases commonIndent? ls with
  | none => rw [Option.map_none, List.map_const', List.map_const', h.length_eq]
  | some k => exact map_drop_shifted h k

theorem not_mem_of_shifted (h : List.Forall₂ (Shifted n) ls ls') (free : ∀ line ∈ ls, '\n' ∉ line) :
    ∀ line' ∈ ls', '\n' ∉ line' := by
  induction h with
  | nil => exact free
  | @cons line line' ls ls' first rest ih =>
    intro other member
    rcases List.mem_cons.1 member with rfl | later
    · exact first.not_mem (free line List.mem_cons_self)
    · exact ih (fun line behind => free line (List.mem_cons_of_mem _ behind)) other later

theorem lines_shifted {t : List Char} (h : List.Forall₂ (Shifted n) (lines t) ls') :
    lines (unlines ls') = ls' := by
  apply pieces_joinPieces
  · exact not_mem_of_shifted h fun line member => not_mem_of_mem_pieces member
  · intro nothing
    rw [nothing] at h
    exact pieces_ne_nil '\n' t (List.forall₂_nil_right_iff.1 h)

theorem dedent_shifted {t : List Char} (h : List.Forall₂ (Shifted n) (lines t) ls') :
    dedent (unlines ls') = dedent t := by
  rw [dedent, lines_shifted h, dedentLines_shifted h, dedent]

end Shifted

end SourceSpecs.Text

namespace SourceSpecs.Extraction

open Text

theorem extract_of_dedent {source source' : String}
    (same : dedent source'.toList = dedent source.toList) :
    extract source' = extract source ∧ collectTypes source' = collectTypes source ∧
      functionSpecsOf source' = functionSpecsOf source := by
  unfold extract collectTypes customTypes? functionSpecsOf
  rw [same]
  exact ⟨rfl, rfl, rfl⟩

/-- A margin makes no difference: the text without its indent is the same, and so is all that is
    read of it, the places in the record included. -/
theorem extract_shifted {n : Nat} {source : String} {ls : List (List Char)}
    (margins : List.Forall₂ (Shifted n) (lines source.toList) ls) :
    let shifted := String.ofList (unlines ls)
    dedent shifted.toList = dedent source.toList ∧ extract shifted = extract source ∧
      collectTypes shifted = collectTypes source ∧
      functionSpecsOf shifted = functionSpecsOf source := by
  intro shifted
  have same : dedent shifted.toList = dedent source.toList := by
    rw [String.toList_ofList, dedent_shifted margins]
  exact ⟨same, extract_of_dedent same⟩

def indentedHeader : String := "  export function f(a: A): B \x7b\n \t\n\n    return a;\n"

def shiftedHeader : List (List Char) :=
  ["\t   export function f(a: A): B \x7b".toList, "\u00a0\u3000 \t".toList, "\t\t".toList,
    "      return a;".toList, []]

theorem extract_shiftedHeader :
    List.Forall₂ (Shifted 2) (lines indentedHeader.toList) shiftedHeader ∧
      unlines shiftedHeader ≠ indentedHeader.toList ∧
      extract (String.ofList (unlines shiftedHeader)) = extract indentedHeader := by
  have margins : List.Forall₂ (Shifted 2) (lines indentedHeader.toList) shiftedHeader := by
    have parts : lines indentedHeader.toList = ["  export function f(a: A): B \x7b".toList,
        " \t".toList, [], "    return a;".toList, []] := by decide
    rw [parts]
    have behind (m line : List Char) (width : m.length = 2) (blank : ∀ x ∈ m, isBlank x = true)
        (inLine : '\n' ∉ m) : Shifted 2 line (m ++ line) := .margin width blank inLine
    exact .cons (behind "\t ".toList _ rfl (by decide) (by decide))
      (.cons (behind "\u00a0\u3000".toList _ rfl (by decide) (by decide))
        (.cons (behind "\t\t".toList _ rfl (by decide) (by decide))
          (.cons (behind "  ".toList _ rfl (by decide) (by decide)) (.cons .empty .nil))))
  exact ⟨margins, by decide, (extract_shifted margins).2.1⟩

end SourceSpecs.Extraction
