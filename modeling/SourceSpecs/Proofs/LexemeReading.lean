import SourceSpecs.Proofs.StringReading
/-!
Names, patterns and the pieces of templates in a text that leaves nothing open. What follows the text
does not change them.
-/
namespace SourceSpecs.Syntax

/-- The first `n` characters are within the text, and behind them the text leaves nothing open. -/
structure Past (m : Mode) (o : List Opening) (n : Nat) (t : List Char) : Prop where
  bound : n ≤ t.length
  held : Held ⟨m, 0, o⟩ (t.drop n)

theorem Past.zero {m : Mode} {o : List Opening} {t : List Char} (h : Held ⟨m, 0, o⟩ t) :
    Past m o 0 t := ⟨Nat.zero_le _, h⟩

theorem Past.cons {m : Mode} {o : List Opening} {n : Nat} {t : List Char} (c : Char)
    (h : Past m o n t) : Past m o (n + 1) (c :: t) := ⟨Nat.succ_le_succ h.bound, h.held⟩

theorem PlainRun.past {o : List Opening} {n : Nat} {t : List Char} (run : PlainRun n t)
    (h : Held ⟨.code, 0, o⟩ t) : Past .code o n t := ⟨run.1, run.held h⟩

theorem nameLength_cons (c : Char) (t : List Char) :
    nameLength 0 (c :: t) =
      if isNamePart c then nameLength 0 t + 1
      else if escapeLength (c :: t) = 0 then 0
      else nameLength (escapeLength (c :: t) - 1) t + 1 := by
  rw [nameLength]
  split
  · rfl
  · cases escapeLength (c :: t) with
    | zero => rfl
    | succ n => rfl

theorem escape_of_escapeLength {c : Char} {t : List Char} (some_taken : escapeLength (c :: t) ≠ 0) :
    c = '\\' := by
  by_contra no_escape
  exact some_taken (escapeLength_of_ne t no_escape)

theorem one_lt_escapeLength {t : List Char} (some_taken : escapeLength t ≠ 0) :
    1 < escapeLength t := by
  unfold escapeLength at some_taken ⊢
  split <;> simp_all

theorem Held.escape {o : List Opening} {t : List Char} (h : Held ⟨.code, 0, o⟩ ('\\' :: t))
    (some_taken : escapeLength ('\\' :: t) ≠ 0) :
    Held ⟨.code, escapeLength ('\\' :: t) - 1, o⟩ t := by
  have := one_lt_escapeLength some_taken
  refine h.next ?_ (Or.inr (Or.inr (by decide)))
  simp [Stage.next, Stage.afterCode, Stage.afterEscape, show escapeLength ('\\' :: t) - 1 ≠ 0 by omega]

theorem nameLength_append {o : List Opening} (known : Nat) {t : List Char} (w : List Char)
    (h : Held ⟨.code, known, o⟩ t) :
    nameLength known (t ++ w) = nameLength known t ∧ Past .code o (nameLength known t) t := by
  induction t generalizing known with
  | nil => exact absurd rfl h.ne_nil
  | cons c t ih =>
    rw [List.cons_append]
    cases known with
    | succ known =>
      obtain ⟨same, past⟩ :=
        ih known (h.next (by simp [Stage.next]) (Or.inl (Nat.succ_ne_zero known)))
      rw [nameLength, nameLength, same]
      exact ⟨rfl, past.cons c⟩
    | zero =>
      have same_escape : escapeLength (c :: (t ++ w)) = escapeLength (c :: t) :=
        escapeLength_append w h.ends
      rw [nameLength_cons, nameLength_cons, same_escape]
      by_cases part : isNamePart c = true
      · obtain ⟨same, past⟩ := ih 0 (h.plain (isPlain_of_isInline (isInline_of_isNamePart part)))
        rw [if_pos part, if_pos part, same]
        exact ⟨rfl, past.cons c⟩
      · rw [if_neg part, if_neg part]
        split
        · exact ⟨rfl, .zero h⟩
        · rename_i some_taken
          obtain rfl := escape_of_escapeLength some_taken
          obtain ⟨same, past⟩ := ih _ (h.escape some_taken)
          rw [same]
          exact ⟨rfl, past.cons _⟩

theorem nameLength?_append {o : List Opening} {t : List Char} (w : List Char)
    (h : Held ⟨.code, 0, o⟩ t) :
    nameLength? (t ++ w) = nameLength? t ∧ ∀ n, nameLength? t = some n → Past .code o n t := by
  obtain ⟨same, past⟩ := nameLength_append 0 w h
  cases t with
  | nil => exact absurd rfl h.ne_nil
  | cons c t =>
    have same_escape := escapeLength_append w h.ends
    rw [List.cons_append] at same same_escape ⊢
    rw [nameLength?, nameLength?, same, same_escape]
    refine ⟨rfl, ?_⟩
    intro n e
    split at e
    · exact Option.some.inj e ▸ past
    · cases e

theorem patternRest?_escape (length : Nat) (inClass : Bool) (c : Char) (t : List Char) :
    patternRest? length inClass ('\\' :: c :: t) =
      if c == '\n' then none else patternRest? (length + 2) inClass t := rfl

theorem patternRest?_other {c : Char} (length : Nat) (inClass : Bool) (t : List Char)
    (no_escape : c ≠ '\\') :
    patternRest? length inClass (c :: t) =
      if c == '\n' then none
      else if c == '/' && !inClass then some (length + 1)
      else patternRest? (length + 1) (if inClass then c != ']' else c == '[') t := by
  rw [patternRest?.eq_def]
  split
  · simp_all
  · simp_all
  · rename_i same
    obtain ⟨rfl, rfl⟩ := List.cons.inj same
    simp [no_escape]

theorem patternRest?_append (length : Nat) (inClass : Bool) {t : List Char} (w : List Char)
    (ends : t.getLast? = some '\n') :
    patternRest? length inClass (t ++ w) = patternRest? length inClass t ∧
      ∀ n, patternRest? length inClass t = some n →
        ∃ a b, t = a ++ b ∧ n = length + a.length ∧ b.getLast? = some '\n' := by
  induction size : t.length using Nat.strongRecOn generalizing t length inClass with
  | ind size' ih =>
    cases t with
    | nil => cases ends
    | cons c t =>
      by_cases escape : c = '\\'
      · subst escape
        cases t with
        | nil => exact absurd ends (by decide)
        | cons d t =>
          rw [List.cons_append, List.cons_append, patternRest?_escape, patternRest?_escape]
          split
          · exact ⟨rfl, fun n e => by cases e⟩
          · rename_i no_break
            cases t with
            | nil => simp_all
            | cons x t =>
              obtain ⟨same, found⟩ := ih (x :: t).length (by simp at size ⊢; omega) (length + 2) inClass
                (t := x :: t) (by simpa using ends) rfl
              refine ⟨same, ?_⟩
              intro n e
              obtain ⟨a, b, parts, rfl, rest⟩ := found n e
              exact ⟨'\\' :: d :: a, b, by rw [parts]; rfl, by simp; omega, rest⟩
      · rw [List.cons_append, patternRest?_other _ _ _ escape, patternRest?_other _ _ _ escape]
        split
        · exact ⟨rfl, fun n e => by cases e⟩
        · rename_i no_break
          cases t with
          | nil => simp_all
          | cons x t =>
            have ends' : (x :: t).getLast? = some '\n' := by simpa using ends
            split
            · refine ⟨rfl, ?_⟩
              intro n e
              exact ⟨[c], x :: t, rfl, (Option.some.inj e).symm, ends'⟩
            · obtain ⟨same, found⟩ := ih (x :: t).length (by simp at size ⊢; omega) (length + 1)
                (if inClass then c != ']' else c == '[') ends' rfl
              refine ⟨same, ?_⟩
              intro n e
              obtain ⟨a, b, parts, rfl, rest⟩ := found n e
              exact ⟨c :: a, b, by rw [parts]; rfl, by simp; omega, rest⟩

theorem regularExpressionLength?_slash {c : Char} (t : List Char) :
    regularExpressionLength? ('/' :: c :: t) =
      if c == '/' then none
      else (patternRest? 1 false (c :: t)).map fun n =>
        n + (((c :: t).drop (n - 1)).takeWhile isLowerCase).length := rfl

theorem regularExpressionLength?_append {t : List Char} (w : List Char)
    (ends : t.getLast? = some '\n') :
    regularExpressionLength? (t ++ w) = regularExpressionLength? t := by
  rcases t with _ | ⟨s, _ | ⟨c, t⟩⟩
  · cases ends
  · obtain rfl : s = '\n' := by simpa using ends
    rfl
  · by_cases slash : s = '/'
    · subst slash
      have ends' : (c :: t).getLast? = some '\n' := by simpa using ends
      obtain ⟨same, found⟩ := patternRest?_append 1 false w ends'
      rw [List.cons_append, List.cons_append, regularExpressionLength?_slash,
        regularExpressionLength?_slash]
      rw [List.cons_append] at same
      rw [same]
      cases rest : patternRest? 1 false (c :: t) with
      | none => rfl
      | some n =>
        obtain ⟨a, b, parts, rfl, ends_b⟩ := found n rest
        have flags := (takeWhile_append (p := isLowerCase) w ends_b (by decide)).1
        rw [← List.cons_append, parts, List.append_assoc, Option.map_some, Option.map_some,
          Nat.add_sub_cancel_left, List.drop_left, List.drop_left, flags]
    · have misfit (u : List Char) : regularExpressionLength? (s :: u) = none := by
        unfold regularExpressionLength?
        split <;> simp_all
      rw [List.cons_append, misfit, misfit]

theorem Held.pattern {o : List Opening} {t : List Char} {n : Nat} (h : Held ⟨.code, 0, o⟩ ('/' :: t))
    (no_comment : t.head? ≠ some '/' ∧ t.head? ≠ some '*')
    (found : regularExpressionLength? ('/' :: t) = some n) : Past .code o n ('/' :: t) := by
  have known : Held ⟨.code, n - 1, o⟩ t := by
    refine h.next ?_ (Or.inr (Or.inr (by decide)))
    simp [Stage.next, Stage.afterCode, Stage.afterSlash, no_comment, found]
  obtain ⟨bound, held⟩ := known.known
  have positive : n ≠ 0 := by
    rintro rfl
    cases t with
    | nil => cases found
    | cons c t =>
      rw [regularExpressionLength?_slash] at found
      split at found
      · cases found
      · obtain ⟨k, rest, zero⟩ := Option.map_eq_some_iff.1 found
        obtain ⟨a, b, _, rfl, _⟩ :=
          (patternRest?_append 1 false [] (by simpa using h.ends)).2 k rest
        omega
  obtain ⟨m, rfl⟩ := Nat.exists_eq_succ_of_ne_zero positive
  exact Past.cons _ ⟨bound, held⟩

theorem templateTextLength?_hole (length : Nat) (t : List Char) :
    templateTextLength?.go length ('$' :: '\x7b' :: t) =
      if length == 0 then none else some length := rfl

theorem templateTextLength?_other {c : Char} {length : Nat} {t : List Char}
    (no_hole : ¬ (c = '$' ∧ t.head? = some '\x7b')) :
    templateTextLength?.go length (c :: t) =
      if c == '\x60' || c == '\\' then if length == 0 then none else some length
      else templateTextLength?.go (length + 1) t := by
  rw [templateTextLength?.go.eq_def]
  split
  · simp_all
  · rename_i same
    obtain ⟨_, same⟩ := same
    simp_all
  · simp_all

theorem templateTextGo_append {o : List Opening} (length : Nat) {t : List Char} (w : List Char)
    (h : Held ⟨.template, 0, o⟩ t) :
    templateTextLength?.go length (t ++ w) = templateTextLength?.go length t ∧
      EndsBefore ⟨.template, 0, o⟩ length t (templateTextLength?.go length t) := by
  have here {k : Nat} {u : List Char} (held : Held ⟨.template, 0, o⟩ u) :
      EndsBefore ⟨.template, 0, o⟩ k u (if k == 0 then none else some k) := by
    intro n e
    split at e
    · cases e
    · exact ⟨[], u, rfl, (Option.some.inj e).symm, held⟩
  induction t generalizing length with
  | nil => exact absurd rfl h.ne_nil
  | cons c t ih =>
    rw [List.cons_append]
    by_cases hole : c = '$' ∧ t.head? = some '\x7b'
    · obtain ⟨rfl, brace⟩ := hole
      obtain ⟨u, rfl⟩ := List.head?_eq_some_iff.1 brace
      rw [List.cons_append, templateTextLength?_hole, templateTextLength?_hole]
      exact ⟨rfl, here h⟩
    · have hole' : ¬ (c = '$' ∧ (t ++ w).head? = some '\x7b') := by
        rintro ⟨rfl, brace⟩
        have nonempty : t ≠ [] := by
          rintro rfl
          exact absurd h.ends (by decide)
        rw [List.head?_append_of_ne_nil t nonempty] at brace
        exact hole ⟨rfl, brace⟩
      rw [templateTextLength?_other hole, templateTextLength?_other hole']
      split
      · exact ⟨rfl, here h⟩
      · rename_i no_mark
        have neither : c ≠ '\x60' ∧ c ≠ '\\' := by simpa using no_mark
        have further : Held ⟨.template, 0, o⟩ t :=
          h.next (by simp [Stage.next, hole, neither]) (Or.inr (Or.inl Mode.noConfusion))
        obtain ⟨same, ends⟩ := ih (length + 1) further
        exact ⟨same, ends.beyond c⟩

theorem templateTextLength?_append {o : List Opening} {t : List Char} (w : List Char)
    (h : Held ⟨.template, 0, o⟩ t) :
    templateTextLength? (t ++ w) = templateTextLength? t ∧
      ∀ n, templateTextLength? t = some n → Past .template o n t := by
  obtain ⟨same, ends⟩ := templateTextGo_append 0 w h
  refine ⟨same, ?_⟩
  intro n e
  obtain ⟨bound, held⟩ := ends.drop e
  exact ⟨bound, held⟩

end SourceSpecs.Syntax
