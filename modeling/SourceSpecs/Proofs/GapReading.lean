import Mathlib.Data.List.Basic
import Mathlib.Data.List.TakeWhile
import SourceSpecs.Proofs.Closing
/-!
Blanks, comments and the ends of statements in a text that leaves nothing open. None of them reaches
the text's last brace, so nothing that is written behind the text changes how they are read.
-/
namespace SourceSpecs

def Span.move (n : Nat) (s : Span) : Span := ⟨s.start + n, s.stop + n⟩

theorem Span.move_inj {n : Nat} {s s' : Span} (h : s.move n = s'.move n) : s = s' := by
  cases s
  cases s'
  simpa [move] using h

namespace Syntax

theorem after?_append {w t : List Char} (v : List Char) (no_break : '\n' ∉ w)
    (ends : t.getLast? = some '\n') : after? w (t ++ v) = (after? w t).map (· ++ v) := by
  induction w generalizing t with
  | nil => rfl
  | cons a w ih =>
    cases t with
    | nil => simp at ends
    | cons b t =>
      by_cases same : a = b
      · cases t with
        | nil =>
          obtain rfl : b = '\n' := by simpa using ends
          exact absurd (same ▸ List.mem_cons_self) no_break
        | cons c t =>
          have := ih (t := c :: t) (fun inside => no_break (List.mem_cons_of_mem a inside))
            (by simpa using ends)
          simpa [after?, same] using this
      · simp [after?, same]

def Gap.mode : Gap → Mode
  | blank => .code
  | lineComment _ => .lineComment
  | blockComment _ => .blockComment

def Gap.Moved (n : Nat) : Gap → Gap → Prop
  | blank, blank => True
  | lineComment start, lineComment start' => start' = start + n
  | blockComment start, blockComment start' => start'.offset = start.offset + n
  | _, _ => False

/-- The first character behind blanks and comments. -/
structure Stop (o : List Opening) (r : List Char) : Prop where
  held : Held ⟨.code, 0, o⟩ r
  head : ∃ c t, r = c :: t ∧ isSpace c = false ∧
    (c = '/' → t.head? ≠ some '/' ∧ t.head? ≠ some '*')

theorem Held.lineComment_start {o : List Opening} {t : List Char}
    (h : Held ⟨.code, 0, o⟩ ('/' :: '/' :: t)) : Held ⟨.lineComment, 0, o⟩ t := by
  have first : Held ⟨.lineComment, 0, o⟩ ('/' :: t) :=
    h.next (List.mem_singleton_self _) (Or.inr (Or.inr (by decide)))
  exact first.next (List.mem_singleton_self _) (Or.inr (Or.inr (by decide)))

theorem Held.blockComment_start {o : List Opening} {t : List Char}
    (h : Held ⟨.code, 0, o⟩ ('/' :: '*' :: t)) : Held ⟨.blockComment, 0, o⟩ t := by
  have first : Held ⟨.opening, 0, o⟩ ('*' :: t) :=
    h.next (List.mem_singleton_self _) (Or.inr (Or.inr (by decide)))
  exact first.next (List.mem_singleton_self _) (Or.inr (Or.inr (by decide)))

theorem Held.slash {o : List Opening} {t : List Char} (h : Held ⟨.code, 0, o⟩ ('/' :: t))
    (no_comment : t.head? ≠ some '/' ∧ t.head? ≠ some '*') : Held ⟨.code, 0, o⟩ t := by
  refine h.next ?_ (Or.inr (Or.inr (by decide)))
  simp [Stage.next, Stage.afterCode, Stage.afterSlash, no_comment]

theorem Held.lineComment {o : List Opening} {c : Char} {t : List Char}
    (h : Held ⟨.lineComment, 0, o⟩ (c :: t)) :
    Held ⟨if isLineBreak c then .code else .lineComment, 0, o⟩ t :=
  h.next (List.mem_singleton_self _) (Or.inr (Or.inl Mode.noConfusion))

theorem Held.blockComment_end {o : List Opening} {t : List Char}
    (h : Held ⟨.blockComment, 0, o⟩ ('*' :: '/' :: t)) : Held ⟨.code, 0, o⟩ t := by
  have star : Held ⟨.star, 0, o⟩ ('/' :: t) :=
    h.next (List.mem_singleton_self _) (Or.inr (Or.inl Mode.noConfusion))
  exact star.next (List.mem_singleton_self _) (Or.inr (Or.inl Mode.noConfusion))

theorem Held.star {o : List Opening} {c : Char} {t : List Char} (not_end : c ≠ '/')
    (h : Held ⟨.star, 0, o⟩ (c :: t)) : Held ⟨.blockComment, 0, o⟩ (c :: t) := by
  refine ⟨?_, h.ends⟩
  have closed := h.closes
  simp only [Syntax.closes, Stage.next, not_end] at closed ⊢
  exact closed

theorem Held.blockComment {o : List Opening} {c : Char} {t : List Char}
    (not_end : ∀ u, c :: t ≠ '*' :: '/' :: u) (h : Held ⟨.blockComment, 0, o⟩ (c :: t)) :
    Held ⟨.blockComment, 0, o⟩ t := by
  have further : Held ⟨if c = '*' then .star else .blockComment, 0, o⟩ t :=
    h.next (List.mem_singleton_self _) (Or.inr (Or.inl Mode.noConfusion))
  by_cases star : c = '*'
  · subst star
    rw [if_pos rfl] at further
    cases t with
    | nil => exact absurd rfl further.ne_nil
    | cons d t => exact further.star fun slash => not_end t (slash ▸ rfl)
  · rwa [if_neg star] at further

def notPlain : List Char := "/\\\x60'\")]\x7d([\x7b".toList

theorem isPlain_of_apart {p : Char → Bool} {c : Char} (h : p c = true)
    (apart : notPlain.all (fun d => !p d) = true) : isPlain c = true := by
  have ne {d : Char} (member : d ∈ notPlain) : c ≠ d := by
    rintro rfl
    have := List.all_eq_true.1 apart c member
    simp [h] at this
  simp [isPlain, isCloser, openedBy, ne (d := ')') (by decide), ne (d := ']') (by decide),
    ne (d := '\x7d') (by decide), ne (d := '(') (by decide), ne (d := '[') (by decide),
    ne (d := '\x7b') (by decide), ne (d := '/') (by decide), ne (d := '\x60') (by decide),
    ne (d := '\\') (by decide), ne (d := '\'') (by decide), ne (d := '"') (by decide)]

theorem isPlain_of_isSpace {c : Char} (h : isSpace c = true) : isPlain c = true :=
  isPlain_of_apart h (by decide)

theorem gap_other {o : Nat} {c : Char} {t : List Char} (not_slash : c ≠ '/') :
    gap .blank o (c :: t) = if isSpace c then gap .blank (o + 1) t else ([], ⟨o, c :: t⟩) := by
  rw [gap.eq_def]
  split <;> simp_all

theorem no_comment_of_ne {t : List Char} (not_line : ∀ u, t ≠ '/' :: u)
    (not_block : ∀ u, t ≠ '*' :: u) : t.head? ≠ some '/' ∧ t.head? ≠ some '*' := by
  constructor
  · intro line
    obtain ⟨u, rfl⟩ := List.head?_eq_some_iff.1 line
    exact not_line u rfl
  · intro block
    obtain ⟨u, rfl⟩ := List.head?_eq_some_iff.1 block
    exact not_block u rfl

theorem gap_slash {o : Nat} {t : List Char} (no_comment : t.head? ≠ some '/' ∧ t.head? ≠ some '*') :
    gap .blank o ('/' :: t) = ([], ⟨o, '/' :: t⟩) := by
  rw [gap.eq_def]
  split <;> simp_all
  rename_i same
  rw [← same.1, if_neg (by decide)]

theorem gap_lineComment {start o : Nat} {c : Char} {t : List Char} :
    gap (.lineComment start) o (c :: t) =
      if isLineBreak c then
        (⟨start, o⟩ :: (gap .blank (o + 1) t).1, (gap .blank (o + 1) t).2)
      else gap (.lineComment start) (o + 1) t := by
  rw [gap.eq_def]

theorem gap_blockComment_end {start : Cursor} {o : Nat} {t : List Char} :
    gap (.blockComment start) o ('*' :: '/' :: t) =
      (⟨start.offset, o + 2⟩ :: (gap .blank (o + 2) t).1, (gap .blank (o + 2) t).2) := rfl

theorem gap_blockComment {start : Cursor} {o : Nat} {c : Char} {t : List Char}
    (not_end : ∀ u, c :: t ≠ '*' :: '/' :: u) :
    gap (.blockComment start) o (c :: t) = gap (.blockComment start) (o + 1) t := by
  rw [gap.eq_def]
  split <;> simp_all

theorem not_end_append {c : Char} {t : List Char} {o : List Opening} (w : List Char)
    (not_end : ∀ u, c :: t ≠ '*' :: '/' :: u) (h : Held ⟨.blockComment, 0, o⟩ t) :
    ∀ u, c :: (t ++ w) ≠ '*' :: '/' :: u := by
  intro u e
  cases t with
  | nil => exact absurd rfl h.ne_nil
  | cons d t =>
    simp only [List.cons_append, List.cons.injEq] at e
    exact not_end t (by rw [e.1, e.2.1])

/-- What follows the text does not turn a slash in it into a comment. -/
theorem no_comment_append {o : List Opening} {t : List Char} (w : List Char)
    (no_comment : t.head? ≠ some '/' ∧ t.head? ≠ some '*') (h : Held ⟨.code, 0, o⟩ ('/' :: t)) :
    (t ++ w).head? ≠ some '/' ∧ (t ++ w).head? ≠ some '*' := by
  rwa [List.head?_append_of_ne_nil t (h.slash no_comment).ne_nil]

/-- What blanks and comments come to in a text that has moved and in which more follows. -/
def MovedGap (n : Nat) (w : List Char) (k : List Opening) (c : Cursor) (found found' : List Span × Cursor) :
    Prop :=
  found'.1 = found.1.map (Span.move n) ∧ found'.2 = ⟨found.2.offset + n, found.2.rest ++ w⟩ ∧
    Stop k found.2.rest ∧ c.Reaches found.2 ∧ ∀ x ∈ found.1, x.stop ≤ found.2.offset

theorem reaches_cons (o : Nat) (c : Char) (t : List Char) :
    Cursor.Reaches ⟨o, c :: t⟩ ⟨o + 1, t⟩ := ⟨[c], rfl, rfl⟩

theorem reaches_cons_cons (o : Nat) (c d : Char) (t : List Char) :
    Cursor.Reaches ⟨o, c :: d :: t⟩ ⟨o + 2, t⟩ := ⟨[c, d], rfl, rfl⟩

namespace MovedGap

variable {n : Nat} {w : List Char} {k : List Opening} {c d : Cursor} {found found' : List Span × Cursor}

theorem after (reaches : c.Reaches d) (h : MovedGap n w k d found found') :
    MovedGap n w k c found found' := by
  obtain ⟨comments, next, stop, further, bound⟩ := h
  exact ⟨comments, next, stop, reaches.trans further, bound⟩

theorem comment {x x' : Span} (moved : x' = x.move n) (ends : x.stop ≤ d.offset)
    (reaches : c.Reaches d) (h : MovedGap n w k d found found') :
    MovedGap n w k c (x :: found.1, found.2) (x' :: found'.1, found'.2) := by
  obtain ⟨comments, next, stop, further, bound⟩ := h
  refine ⟨by simp [moved, comments], next, stop, reaches.trans further, ?_⟩
  intro y member
  rcases List.mem_cons.1 member with rfl | member
  · obtain ⟨between, _, e⟩ := further
    simp only at e ⊢
    omega
  · exact bound y member

theorem here {o : Nat} {x : Char} {t : List Char} (shown : ¬ isSpace x = true)
    (no_comment : x = '/' → t.head? ≠ some '/' ∧ t.head? ≠ some '*')
    (h : Held ⟨.code, 0, k⟩ (x :: t)) :
    MovedGap n w k ⟨o, x :: t⟩ ([], ⟨o, x :: t⟩) (gap .blank (o + n) (x :: t ++ w)) := by
  have stays : gap .blank (o + n) (x :: (t ++ w)) = ([], ⟨o + n, x :: (t ++ w)⟩) := by
    by_cases slash : x = '/'
    · subst slash
      exact gap_slash (no_comment_append w (no_comment rfl) h)
    · rw [gap_other slash, if_neg shown]
  rw [List.cons_append, stays]
  exact ⟨rfl, rfl, ⟨h, x, t, rfl, by simpa using shown, no_comment⟩, Cursor.Reaches.refl _, by simp⟩

end MovedGap

theorem gap_append {g y : Gap} {o : Nat} {r : List Char} {k : List Opening} (n : Nat)
    (w : List Char) (moved : g.Moved n y) (h : Held ⟨g.mode, 0, k⟩ r) :
    MovedGap n w k ⟨o, r⟩ (gap g o r) (gap y (o + n) (r ++ w)) := by
  fun_induction gap g o r generalizing y k with
  | case1 o t ih =>
    cases y <;> try cases moved
    have rest := ih (y := .lineComment (o + n)) rfl h.lineComment_start
    rw [show o + 2 + n = o + n + 2 by omega] at rest
    exact rest.after (reaches_cons_cons o _ _ _)
  | case2 o t ih =>
    cases y <;> try cases moved
    have rest := ih (y := .blockComment ⟨o + n, '/' :: '*' :: (t ++ w)⟩) rfl h.blockComment_start
    rw [show o + 2 + n = o + n + 2 by omega] at rest
    exact rest.after (reaches_cons_cons o _ _ _)
  | case3 o c t not_line not_block space ih =>
    cases y <;> try cases moved
    have not_slash : c ≠ '/' := by
      rintro rfl
      exact absurd space (by decide)
    have rest := ih (y := .blank) trivial (h.plain (isPlain_of_isSpace space))
    rw [show o + 1 + n = o + n + 1 by omega] at rest
    rw [List.cons_append, gap_other not_slash, if_pos space]
    exact rest.after (reaches_cons o c t)
  | case4 o c t not_line not_block space =>
    cases y <;> try cases moved
    exact .here space
      (fun slash => no_comment_of_ne (fun u => not_line u slash) (fun u => not_block u slash)) h
  | case5 o => exact absurd rfl h.ne_nil
  | case6 start o c t line_break comments next e ih =>
    cases y <;> try cases moved
    have code := h.lineComment
    rw [if_pos line_break] at code
    have rest := ih (y := .blank) trivial code
    rw [show o + 1 + n = o + n + 1 by omega] at rest
    rw [List.cons_append, gap_lineComment, if_pos line_break]
    rw [e] at rest
    exact rest.comment (x := ⟨start, o⟩) rfl (Nat.le_succ o) (reaches_cons o c t)
  | case7 start o c t line_break ih =>
    cases y <;> try cases moved
    have inside := h.lineComment
    rw [if_neg line_break] at inside
    have rest := ih (y := .lineComment (start + n)) rfl inside
    rw [show o + 1 + n = o + n + 1 by omega] at rest
    rw [List.cons_append, gap_lineComment, if_neg line_break]
    exact rest.after (reaches_cons o c t)
  | case8 => exact absurd rfl h.ne_nil
  | case9 start o t comments next e ih =>
    cases y with
    | blockComment start' =>
      have rest := ih (y := .blank) trivial h.blockComment_end
      rw [show o + 2 + n = o + n + 2 by omega] at rest
      rw [List.cons_append, List.cons_append, gap_blockComment_end]
      rw [e] at rest
      refine rest.comment (x := ⟨start.offset, o + 2⟩) ?_ (Nat.le_refl _) (reaches_cons_cons o _ _ t)
      simp [Span.move, show start'.offset = start.offset + n from moved]
      omega
    | blank => cases moved
    | lineComment start' => cases moved
  | case10 start o c t not_end ih =>
    cases y with
    | blockComment start' =>
      have apart : ∀ u, c :: t ≠ '*' :: '/' :: u := by
        intro u e
        exact not_end u (List.cons.inj e).1 (List.cons.inj e).2
      have further := h.blockComment apart
      have rest := ih (y := .blockComment start') moved further
      rw [show o + 1 + n = o + n + 1 by omega] at rest
      rw [List.cons_append, gap_blockComment (not_end_append w apart further)]
      exact rest.after (reaches_cons o c t)
    | blank => cases moved
    | lineComment start' => cases moved
  | case11 => exact absurd rfl h.ne_nil

/-- What there is to be read beyond a text: nothing or, unless it is the last one, an export. -/
def Beyond (last : Bool) (w : List Char) : Prop :=
  w = [] ∨ last = false ∧ ∃ t, w = "export".toList ++ t

theorem startsWithLetter_append {t : List Char} (w : List Char) (ends : t.getLast? = some '\n') :
    startsWithLetter (t ++ w) = startsWithLetter t := by
  cases t with
  | nil => simp at ends
  | cons c t => rfl

theorem getLast?_after {word t u : List Char} (found : after? word t = some u)
    (no_break : '\n' ∉ word) (ends : t.getLast? = some '\n') : u.getLast? = some '\n' := by
  obtain rfl := after?_eq_some_iff.1 found
  cases u with
  | nil =>
    rw [List.append_nil] at ends
    exact absurd (List.mem_of_getLast? ends) no_break
  | cons c u => simpa using ends

theorem startsWithRelation_append {t : List Char} (w : List Char) (ends : t.getLast? = some '\n') :
    startsWithRelation (t ++ w) = startsWithRelation t := by
  unfold startsWithRelation
  rw [after?_append w (by decide) ends]
  cases found : after? "in".toList t with
  | none => rfl
  | some u =>
    have ends_u := getLast?_after found (by decide) ends
    simp only [Option.map_some, startsWithLetter_append w ends_u]
    rw [after?_append w (by decide) ends_u]
    cases found_u : after? "stanceof".toList u with
    | none => rfl
    | some v =>
      simp only [Option.map_some]
      rw [startsWithLetter_append w (getLast?_after found_u (by decide) ends_u)]

theorem startsAnew_congr {e : Ending} {c : Char} {t t' : List Char} (head : t.head? = t'.head?)
    (relation : startsWithRelation (c :: t) = startsWithRelation (c :: t')) :
    startsAnew e (c :: t) = startsAnew e (c :: t') := by
  rw [startsAnew.eq_def, startsAnew.eq_def]
  split <;> simp_all

theorem startsAnew_append {e : Ending} {k : List Opening} {r : List Char} (w : List Char)
    (stop : Stop k r) : startsAnew e (r ++ w) = startsAnew e r := by
  obtain ⟨c, t, rfl, no_space, _⟩ := stop.head
  have ends := stop.held.ends
  cases t with
  | nil =>
    obtain rfl : c = '\n' := by simpa using ends
    exact absurd no_space (by decide)
  | cons d t => exact startsAnew_congr rfl (startsWithRelation_append w ends)

theorem dropWhile_isSpace_append {t : List Char} {k : List Opening} (w : List Char)
    (h : Held ⟨.code, 0, k⟩ t) :
    t.dropWhile isSpace ≠ [] ∧ (t ++ w).dropWhile isSpace = t.dropWhile isSpace ++ w := by
  have nonempty : t.dropWhile isSpace ≠ [] := by
    induction t with
    | nil => exact absurd rfl h.ne_nil
    | cons c t ih =>
      by_cases space : isSpace c = true
      · rw [List.dropWhile_cons_of_pos space]
        exact ih (h.plain (isPlain_of_isSpace space))
      · rw [List.dropWhile_cons_of_neg space]
        exact List.cons_ne_nil _ _
  exact ⟨nonempty, by rw [List.dropWhile_append, if_neg (by simpa using nonempty)]⟩

theorem endsAtBrace_append {e : Ending} {w : List Char} (t : List Char) (follows : Beyond false w) :
    endsAtBrace e (t ++ w) = endsAtBrace e t := by
  unfold endsAtBrace
  rw [List.dropWhile_append]
  by_cases blank : (t.dropWhile isSpace).isEmpty = true
  · rw [if_pos blank, List.isEmpty_iff.1 blank]
    rcases follows with rfl | ⟨_, t, rfl⟩
    · rfl
    · rfl
  · rw [if_neg blank]
    obtain ⟨c, u, parts⟩ := List.exists_cons_of_ne_nil (fun empty => blank (List.isEmpty_iff.2 empty))
    rw [parts, List.cons_append]
    split <;> simp_all

theorem startsAnew_gap_append {e : Ending} {t : List Char} {k : List Opening} (w : List Char)
    (h : Held ⟨.code, 0, k⟩ t) :
    startsAnew e (gap .blank 0 (t ++ w)).2.rest = startsAnew e (gap .blank 0 t).2.rest := by
  have moved := gap_append (g := .blank) (y := .blank) (o := 0) 0 w trivial h
  rw [Nat.zero_add] at moved
  rw [moved.2.1]
  exact startsAnew_append w moved.2.2.1

theorem mayEnd_other {e : Ending} {c : Char} {t : List Char}
    (no_comment : c = '/' → t.head? ≠ some '/' ∧ t.head? ≠ some '*') (not_brace : c ≠ '\x7d')
    (not_break : c ≠ '\n') : mayEnd e .blank (c :: t) = (isSpace c && mayEnd e .blank t) := by
  rw [mayEnd.eq_def]
  split <;> simp_all

theorem mayEnd_lineComment {e : Ending} {o : Nat} {c : Char} {t : List Char} (not_break : c ≠ '\n') :
    mayEnd e (.lineComment o) (c :: t) =
      mayEnd e (if isLineBreak c then .blank else .lineComment o) t := by
  rw [mayEnd.eq_def]
  split <;> simp_all

theorem mayEnd_blockComment {e : Ending} {start : Cursor} {c : Char} {t : List Char}
    (not_end : ∀ u, c :: t ≠ '*' :: '/' :: u) :
    mayEnd e (.blockComment start) (c :: t) = mayEnd e (.blockComment start) t := by
  rw [mayEnd.eq_def]
  split <;> simp_all

theorem mayEnd_append {e : Ending} {g : Gap} {r w : List Char} {k : List Opening}
    (follows : Beyond false w) (h : Held ⟨g.mode, 0, k⟩ r) : mayEnd e g (r ++ w) = mayEnd e g r := by
  fun_induction mayEnd e g r generalizing k with
  | case1 => exact absurd rfl h.ne_nil
  | case2 t ih => exact ih h.lineComment_start
  | case3 t ih => exact ih h.blockComment_start
  | case4 t => exact endsAtBrace_append t follows
  | case5 t => exact startsAnew_gap_append w (h.plain (by decide))
  | case6 c t not_line not_block not_brace not_break ih =>
    have no_comment (slash : c = '/') : t.head? ≠ some '/' ∧ t.head? ≠ some '*' :=
      no_comment_of_ne (fun u => not_line u slash) (fun u => not_block u slash)
    have no_comment' (slash : c = '/') : (t ++ w).head? ≠ some '/' ∧ (t ++ w).head? ≠ some '*' := by
      subst slash
      exact no_comment_append w (no_comment rfl) h
    rw [List.cons_append, mayEnd_other no_comment' not_brace not_break]
    by_cases space : isSpace c = true
    · rw [ih (h.plain (isPlain_of_isSpace space))]
    · simp [space]
  | case7 => exact absurd rfl h.ne_nil
  | case8 start t =>
    have code := h.lineComment
    rw [if_pos (by decide)] at code
    exact startsAnew_gap_append w code
  | case9 o c t not_break ih =>
    rw [List.cons_append, mayEnd_lineComment not_break]
    have further := h.lineComment
    by_cases line_break : isLineBreak c = true
    · rw [if_pos line_break] at ih further ⊢
      exact ih further
    · rw [if_neg line_break] at ih further ⊢
      exact ih further
  | case10 start t ih => exact ih h.blockComment_end
  | case11 start c t not_end ih =>
    have apart : ∀ u, c :: t ≠ '*' :: '/' :: u := by
      intro u e
      exact not_end u (List.cons.inj e).1 (List.cons.inj e).2
    have further := h.blockComment apart
    rw [List.cons_append, mayEnd_blockComment (not_end_append w apart further)]
    exact ih further
  | case12 => exact absurd rfl h.ne_nil

end Syntax

end SourceSpecs
