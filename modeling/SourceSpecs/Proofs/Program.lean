import SourceSpecs.Proofs.EmbeddedGrammar
import SourceSpecs.Proofs.FormInversion
/-!
Texts one after another. Where each of them is well formed and leaves nothing open, the whole is well
formed, and its functions are those of the texts in order.
-/
namespace SourceSpecs.Syntax

variable {n m : Nat} {c d : Cursor} {nodes read : List Tree}

def statementOf (t : List Char) : Cursor → Outcome :=
  readRule Rule.form (t.length + 1) (depthFor t - 1) .statement .never

theorem parse?_eq {t : List Char} (no_script : t.head? ≠ some '#') :
    parse? t =
      match repeatUpTo (t.length + 1) (statementOf t) [] (Cursor.ofText t) with
      | .fits nodes d =>
        if (skipGap d).2.rest = [] then
          some (.node .program none ⟨0, (skipGap d).2.offset⟩ (nodes ++ (skipGap d).1))
        else none
      | _ => none := by
  have deeper : depthFor t = (depthFor t - 1) + 1 := by
    unfold depthFor ruleCount
    omega
  have no_interpreter : Token.interpreter.read (Cursor.ofText t) = none := by
    cases t with
    | nil => rfl
    | cons c t =>
      have apart : c ≠ '#' := by simpa using no_script
      simp [Token.read, Cursor.ofText, Token.length?, apart]
  have statements : readRule Rule.form (t.length + 1) (depthFor t) .program .never (Cursor.ofText t) =
      match repeatUpTo (t.length + 1) (statementOf t) [] (Cursor.ofText t) with
      | .fits nodes d =>
        if (skipGap d).2.rest = [] then .fits (nodes ++ (skipGap d).1) (skipGap d).2 else .misfit
      | o => o := by
    rw [deeper, readRule]
    change Form.read (t.length + 1) (readRule Rule.form (t.length + 1) (depthFor t - 1))
      (.seq (.seq (.alt (.glued .interpreter) .nothing) (.many (.rule Rule.statement))) .finish)
      .never (Cursor.ofText t) = _
    simp only [Form.read, no_interpreter]
    change (match
      (match repeatUpTo (t.length + 1) (statementOf t) [] (Cursor.ofText t) with
      | .fits more d => Outcome.fits ([] ++ more) d
      | o => o) with
      | .fits nodes d => _
      | o => o) = _
    cases repeatUpTo (t.length + 1) (statementOf t) [] (Cursor.ofText t) with
    | misfit => rfl
    | tooDeep => rfl
    | fits nodes d =>
      simp only [List.nil_append]
      cases (skipGap d).2.rest with
      | nil => simp
      | cons x rest => simp
  unfold parse?
  rw [statements]
  cases repeatUpTo (t.length + 1) (statementOf t) [] (Cursor.ofText t) with
  | misfit => rfl
  | tooDeep => rfl
  | fits nodes d =>
    by_cases whole : (skipGap d).2.rest = []
    · simp only [if_pos whole]
    · simp only [if_neg whole]

/-- Where the reading of a text ends and that of the next one begins: before the line break that
    ends the texts before it, if there are any. -/
def seam (before : List Char) (rest : List Char) : Cursor :=
  if before = [] then ⟨0, rest⟩ else ⟨before.length - 1, '\n' :: rest⟩

/-- A text that is read among others: it leaves nothing open, and it exports something. -/
structure Fragment (t : List Char) : Prop where
  held : Held ⟨.code, 0, []⟩ t
  exports : ∃ u, t = "export".toList ++ u

namespace Setting

variable {s : Setting}

theorem length_le : s.text.length + 1 ≤ s.whole.length + 1 := by
  simp only [whole, List.length_append]
  omega

theorem depth_le : depthFor s.text - 1 ≤ depthFor s.whole - 1 :=
  Nat.sub_le_sub_right (Nat.mul_le_mul_right _ length_le) 1

theorem statement_beyond {c c' : Cursor} (quiet : Quiet true c) (quiet' : Quiet true c') :
    s.Agree [] [] (statementOf s.text c) (statementOf s.whole c') :=
  readRule_agree length_le depth_le (l := []) (p := .beyond true) rfl ⟨quiet, quiet'⟩

theorem statement_agree {p : Place} (either : p = .start ∨ p = .inside) {c c' : Cursor}
    (stands : s.Stands [] ([], p) c c') :
    s.Agree [] [([], .inside), ([], .border)] (statementOf s.text c) (statementOf s.whole c') := by
  rcases either with rfl | rfl
  · exact readRule_agree length_le depth_le (l := []) (p := .start) rfl stands
  · exact readRule_agree length_le depth_le (l := []) (p := .inside) rfl stands

theorem quiet_of_stands {c c' : Cursor} (stands : s.Stands [] ([], .border) c c') : Quiet true c :=
  quiet_of_break stands.1.2 (Or.inl rfl)

/-- What is read of a text among others is what is read of the text alone. -/
theorem rounds_agree {p : Place} (either : p = .start ∨ p = .inside ∨ p = .border) {c' : Cursor}
    (stands : s.Stands [] ([], p) c c') (h : Rounds (statementOf s.text) n c nodes d) :
    ∃ nodes' d', Rounds (statementOf s.whole) n c' nodes' d' ∧ s.Echo nodes nodes' ∧
      ∃ q, (q = .start ∨ q = .inside ∨ q = .border) ∧ s.Stands [] ([], q) d d' := by
  induction h generalizing p c' with
  | done c => exact ⟨[], c', .done c', .nil, p, either, stands⟩
  | @round n c d e nodes more reads progress _ ih =>
    have not_border : p ≠ .border := by
      rintro rfl
      have quiet := quiet_of_stands stands
      rcases (statement_beyond (s := s) quiet quiet).misfit with deep | ⟨no, _⟩
      · rw [reads] at deep
        cases deep
      · rw [reads] at no
        cases no
    have either' : p = .start ∨ p = .inside := by
      rcases either with start | inside | border
      · exact Or.inl start
      · exact Or.inr inside
      · exact absurd border not_border
    have agree := statement_agree either' stands
    rw [reads] at agree
    rcases agree.cases with deep | ⟨no, _⟩ | ⟨_, _, nodes', d', yes, reads', echo, x, member, there⟩
    · cases deep
    · cases no
    · cases yes
      have place : x = ([], .inside) ∨ x = ([], .border) := by simpa using member
      obtain ⟨q, rfl, moving⟩ : ∃ q, x = ([], q) ∧ (q = .inside ∨ q = .border) := by
        rcases place with rfl | rfl
        · exact ⟨_, rfl, Or.inl rfl⟩
        · exact ⟨_, rfl, Or.inr rfl⟩
      obtain ⟨more', e', rounds, echo', found⟩ := ih (Or.inr moving) there
      refine ⟨nodes' ++ more', e', .round reads' ?_ rounds, List.rel_append echo echo', found⟩
      have here : d' = ⟨d.offset + s.before.length, d.rest ++ s.behind⟩ := by
        rcases moving with rfl | rfl
        · exact there.2.moved
        · exact there.2.moved
      rw [here]
      rcases either' with rfl | rfl
      · obtain ⟨_, _, rfl, nonempty, rfl⟩ := stands
        have := List.length_pos_of_ne_nil nonempty
        simp only
        omega
      · rw [stands.2.moved]
        simp only
        omega

theorem stands_seam (fragment : Fragment s.text) :
    ∃ p, (p = .start ∨ p = .inside ∨ p = .border) ∧
      s.Stands [] ([], p) (Cursor.ofText s.text) (seam s.before (s.text ++ s.behind)) := by
  have code : At [] ([], .inside) s.text := fragment.held
  by_cases first : s.before = []
  · refine ⟨.inside, Or.inr (Or.inl rfl), code, Cursor.Reaches.refl _, ?_⟩
    simp [seam, first, Cursor.ofText]
  · refine ⟨.start, Or.inl rfl, code, Or.inr ⟨rfl, fragment.exports⟩, rfl, first, ?_⟩
    simp [seam, first]

theorem border_of_end {q : Place} (either : q = .start ∨ q = .inside ∨ q = .border) {d' : Cursor}
    (stands : s.Stands [] ([], q) d d') (ends : (skipGap d).2.rest = []) : q = .border := by
  have impossible {k : List Opening} {b : Cursor} {comments : List Tree} (gap : skipGap d = (comments, b))
      (stop : Stop k b.rest) : False := by
    obtain ⟨x, t, e, _⟩ := stop.head
    rw [gap] at ends
    simp [e] at ends
  rcases either with rfl | rfl | rfl
  · obtain ⟨_, gap, _, _, stop⟩ := skipGap_start stands
    exact (impossible gap stop).elim
  · obtain ⟨_, _, _, _, gap, _, _, _, stop⟩ := stands.2.skipGap stands.1
    exact (impossible gap stop).elim
  · rfl

theorem seam_of_border {d' : Cursor} (stands : s.Stands [] ([], .border) d d') :
    d' = seam (s.before ++ s.text) s.behind := by
  have rest : d.rest = ['\n'] := stands.1.2
  have length := stands.2.offset_add_length
  rw [rest, List.length_singleton] at length
  have nonempty : s.before ++ s.text ≠ [] := by
    intro empty
    rw [(List.append_eq_nil_iff.1 empty).2] at length
    simp at length
  rw [stands.2.moved, rest, seam, if_neg nonempty, List.length_append]
  congr 1
  omega

theorem rounds_of_parse (fragment : Fragment s.text) {tree : Tree} (parsed : parse? s.text = some tree) :
    ∃ n nodes', n ≤ s.text.length ∧ s.Echo tree.children nodes' ∧
      Rounds (statementOf s.whole) n (seam s.before (s.text ++ s.behind)) nodes'
        (seam (s.before ++ s.text) s.behind) ∧
      (s.behind = [] → Rests (statementOf s.whole) (seam (s.before ++ s.text) s.behind)) := by
  obtain ⟨u, exports⟩ := fragment.exports
  have no_script : s.text.head? ≠ some '#' := by
    rw [exports]
    change some 'e' ≠ some '#'
    decide
  rw [parse?_eq no_script] at parsed
  split at parsed
  · rename_i nodes d read
    split at parsed
    · rename_i ends
      obtain rfl := Option.some.inj parsed
      obtain ⟨m, more, bound, rfl, rounds, rests⟩ := rounds_of_repeatUpTo read
      obtain ⟨p, either, stands⟩ := stands_seam fragment
      obtain ⟨nodes', d', rounds', echo, q, either', there⟩ := rounds_agree either stands rounds
      obtain rfl := border_of_end either' there ends
      have last := seam_of_border there
      have quiet := quiet_of_stands there
      have no_comments : (skipGap d).1 = [] := by
        obtain ⟨b, gap, _⟩ := quiet
        rw [gap]
      rw [last] at rounds'
      refine ⟨m, nodes', by omega, ?_, rounds', ?_⟩
      · rw [no_comments, List.append_nil]
        exact echo
      · intro none_behind
        have quiet' : Quiet true (seam (s.before ++ s.text) s.behind) := by
          rw [← last, there.2.moved]
          refine quiet_of_break (t := s.behind) ?_ (Or.inl none_behind)
          rw [show d.rest = ['\n'] from there.1.2]
          rfl
        rcases (statement_beyond (s := s) quiet quiet').misfit with deep | ⟨_, no⟩
        · rcases rests with no | ⟨new, b, yes, _⟩
          · rw [deep] at no
            cases no
          · rw [deep] at yes
            cases yes
        · exact Or.inl no
    · cases parsed
  · cases parsed

end Setting

theorem functionSpecs_eq_ok_iff {t : List Char} {specs : List FunctionSpec} :
    functionSpecs t = .ok specs ↔
      ∃ tree, parse? t = some tree ∧ specs = functionsAmong t tree.children := by
  unfold functionSpecs
  cases parse? t with
  | none => simp
  | some tree =>
    simp only [Except.ok.injEq, Option.some.injEq]
    constructor
    · intro same
      exact ⟨tree, rfl, same.symm⟩
    · rintro ⟨_, rfl, same⟩
      exact same.symm

def Yields (t : List Char) (specs : List FunctionSpec) : Prop :=
  Fragment t ∧ functionSpecs t = .ok specs

theorem beyond_flatten {ts : List (List Char)} {specs : List (List FunctionSpec)}
    (h : List.Forall₂ Yields ts specs) : Beyond false ts.flatten := by
  cases h with
  | nil => exact Or.inl rfl
  | cons head _ =>
    obtain ⟨u, rfl⟩ := head.1.exports
    exact Or.inr ⟨rfl, _, by rw [List.flatten_cons, List.append_assoc]⟩

/-- The statements of texts one after another, behind some others. -/
theorem rounds_of_texts {ts : List (List Char)} {specs : List (List FunctionSpec)}
    (h : List.Forall₂ Yields ts specs) (before : List Char) :
    ∃ n nodes, n ≤ ts.flatten.length ∧
      Rounds (statementOf (before ++ ts.flatten)) n (seam before ts.flatten) nodes
        (seam (before ++ ts.flatten) []) ∧
      functionsAmong (before ++ ts.flatten) nodes = specs.flatten ∧
      (ts ≠ [] → Rests (statementOf (before ++ ts.flatten)) (seam (before ++ ts.flatten) [])) := by
  induction h generalizing before with
  | nil =>
    refine ⟨0, [], Nat.le_refl _, ?_, rfl, fun some_text => absurd rfl some_text⟩
    simp only [List.flatten_nil, List.append_nil]
    exact .done _
  | @cons t x ts specs head rest ih =>
    obtain ⟨tree, parsed, rfl⟩ := functionSpecs_eq_ok_iff.1 head.2
    obtain ⟨n, nodes, bound, echo, rounds, rests⟩ :=
      Setting.rounds_of_parse (s := ⟨before, t, ts.flatten, beyond_flatten rest⟩) head.1 parsed
    obtain ⟨m, more, bound', rounds', functions, rests'⟩ := ih (before ++ t)
    have whole : before ++ (t :: ts).flatten = before ++ t ++ ts.flatten := by simp
    have same := functionsAmong_echo echo
    simp only [Setting.whole] at same rounds rests
    rw [whole, List.flatten_cons]
    refine ⟨n + m, nodes ++ more, ?_, rounds.append rounds', ?_, fun _ => ?_⟩
    · simp only [List.length_append] at bound ⊢
      omega
    · rw [functionsAmong_append, functions, ← same, List.flatten_cons]
    · cases rest with
      | nil => simpa using rests rfl
      | cons next rest => exact rests' (List.cons_ne_nil _ _)

/-- Texts one after another define the functions that each of them defines alone. -/
theorem functionSpecs_flatten {ts : List (List Char)} {specs : List (List FunctionSpec)}
    (h : List.Forall₂ Yields ts specs) : functionSpecs ts.flatten = .ok specs.flatten := by
  cases h with
  | nil => rfl
  | @cons t x ts specs head rest =>
    obtain ⟨n, nodes, bound, rounds, functions, rests⟩ := rounds_of_texts (.cons head rest) []
    rw [List.nil_append] at rounds functions rests
    obtain ⟨u, exports⟩ : ∃ u, (t :: ts).flatten = "export".toList ++ u := by
      obtain ⟨u, rfl⟩ := head.1.exports
      exact ⟨_, by rw [List.flatten_cons, List.append_assoc]⟩
    have no_script : (t :: ts).flatten.head? ≠ some '#' := by
      rw [exports]
      change some 'e' ≠ some '#'
      decide
    have nonempty : (t :: ts).flatten ≠ [] := by
      rw [exports]
      exact List.cons_ne_nil _ _
    have read : repeatUpTo ((t :: ts).flatten.length + 1) (statementOf (t :: ts).flatten) []
        (seam [] (t :: ts).flatten) = .fits nodes (seam (t :: ts).flatten []) :=
      repeatUpTo_of_rounds rounds (by omega) (rests (List.cons_ne_nil _ _))
    have gap : skipGap (seam (t :: ts).flatten []) = ([], ⟨(t :: ts).flatten.length, []⟩) := by
      have := List.length_pos_of_ne_nil nonempty
      rw [seam, if_neg nonempty, skipGap_break (show Beyond true [] from Or.inl rfl)]
      congr 2
      omega
    have parsed : parse? (t :: ts).flatten = some (.node .program none
        ⟨0, (t :: ts).flatten.length⟩ nodes) := by
      rw [parse?_eq no_script]
      simp only [Cursor.ofText, seam, ↓reduceIte] at read gap ⊢
      simp only [read, gap, ↓reduceIte, List.append_nil]
    exact functionSpecs_eq_ok_iff.2 ⟨_, parsed, functions.symm⟩

end SourceSpecs.Syntax
