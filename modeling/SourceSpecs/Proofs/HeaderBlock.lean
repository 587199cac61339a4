import SourceSpecs.Proofs.BlockReading
/-!
A function block is read back from its text. Its header ends at the brace of its own line, because
the longest reading would need another brace as the next mark behind the line.
-/
namespace SourceSpecs.Block

open Text Declaration

def NoBraceNext (rest : List Char) : Prop := (rest.dropWhile isBlank).head? ≠ some '\x7b'

theorem not_brace_next {rest g y : List Char} (free : NoBraceNext rest)
    (blank : ∀ x ∈ g, isBlank x = true) : rest ≠ g ++ '\x7b' :: y := by
  rintro rfl
  refine free ?_
  rw [List.dropWhile_append_of_pos blank, List.dropWhile_cons_of_neg (by decide), List.head?_cons]

theorem read_longest {r : Cursor → Option Cursor} {L : Language Char} {c d : Cursor}
    (h : Finds (· ≥ ·) id r L) (takes : Takes L c d)
    (longest : ∀ e, Takes L c e → e.offset ≤ d.offset) : r c = some d := by
  obtain ⟨e, read⟩ := Option.ne_none_iff_exists'.1 (h.found takes)
  have best := h.best read
  have same : e.offset = d.offset := Nat.le_antisymm (longest e best.1) (best.2 d takes)
  obtain ⟨u, _, reads⟩ := takes
  obtain ⟨v, _, reads'⟩ := best.1
  have lengths : v.length ≤ u.length := by
    have := reads.2
    have := reads'.2
    simp only [id_eq] at *
    omega
  obtain ⟨w, rfl, between⟩ := reads'.prefix reads lengths
  obtain rfl : w = [] := by
    have := between.2
    exact List.length_eq_zero_iff.1 (by simp only [id_eq] at *; omega)
  rw [read, show e = d from Cursor.reads_nil_iff.1 between]

theorem brace_in_line (line : List Char) {rest u t g y : List Char}
    (parts : line ++ '\x7b' :: '\n' :: rest = u ++ t ++ (g ++ '\x7b' :: '\n' :: y))
    (free : NoBraceNext rest) (u_blank : ∀ x ∈ u, isBlank x = true)
    (t_inside : ∀ x ∈ t, isInReturnType x = true) (g_blank : ∀ x ∈ g, isBlank x = true)
    (g_nonempty : g ≠ []) : (u ++ t ++ g).length ≤ line.length := by
  have not_beyond : '\n' :: rest ≠ g ++ '\x7b' :: '\n' :: y := by
    intro same
    cases g with
    | nil => exact g_nonempty rfl
    | cons x g =>
      exact not_brace_next free (fun z member => g_blank z (List.mem_cons_of_mem x member))
        (List.cons.inj same).2
  have parts' : (line ++ ['\x7b']) ++ '\n' :: rest = (u ++ t) ++ (g ++ '\x7b' :: '\n' :: y) := by
    simpa using parts
  rcases List.append_eq_append_iff.1 parts' with ⟨a, whole, behind⟩ | ⟨c, whole, behind⟩
  · cases a with
    | nil => exact absurd behind not_beyond
    | cons x a =>
      obtain ⟨rfl, _⟩ := List.cons.inj behind
      -- the line break would be a blank behind the brace, or part of the type
      rcases List.append_eq_append_iff.1 whole with ⟨z, line_eq, rfl⟩ | ⟨z, rfl, _⟩
      · have := t_inside '\n' (by simp)
        exact absurd this (by decide)
      · have := u_blank '\x7b' (by simp)
        exact absurd this (by decide)
  · rcases List.eq_nil_or_concat c with rfl | ⟨c, x, rfl⟩
    · exact absurd behind.symm not_beyond
    · rw [List.concat_eq_append, ← List.append_assoc] at whole
      obtain ⟨line_eq, last⟩ := List.append_inj' whole rfl
      obtain rfl := List.singleton_injective last
      have := brace_beyond_blanks (v := c) (s := '\n' :: rest) (t := '\n' :: y) g_blank
        (by simpa using behind.symm)
      rw [line_eq]
      simp only [List.length_append]
      omega

theorem headerEnd_of_takes {c d : Cursor} (free : NoBraceNext d.rest)
    (takes : Takes (run isBlank *
      (maybe (exactly ":" * run isBlank * runSome isInReturnType) * brace)) c d) :
    headerEnd c = some d := by
  apply read_longest finds_headerEnd takes
  intro e takes'
  rcases takes_headerEnd_iff.1 takes with ⟨behind, colon, typed⟩ | bare
  · rcases takes_headerEnd_iff.1 takes' with ⟨behind', colon', typed'⟩ | bare'
    · obtain rfl : behind = behind' := Option.some.inj (colon.symm.trans colon')
      obtain ⟨_, ⟨u, _, _, ⟨t, _, w, brace_w, rfl⟩, rfl⟩, reads⟩ := typed
      obtain ⟨g, _, _, rfl⟩ := mem_brace.1 brace_w
      obtain ⟨_, ⟨u', u_blank, _, ⟨t', ⟨_, t_inside⟩, w', brace_w', rfl⟩, rfl⟩, reads'⟩ := typed'
      obtain ⟨g', g_nonempty, g_blank, rfl⟩ := mem_brace.1 brace_w'
      have line := brace_in_line (u ++ t ++ g) (u := u') (t := t') (g := g') (y := e.rest)
        (by simpa using reads.1.symm.trans reads'.1) free u_blank t_inside g_blank g_nonempty
      have := reads.2
      have := reads'.2
      simp only [List.length_append, List.length_cons, List.length_nil] at *
      omega
    · exact absurd bare' (not_takes_brace colon)
  · rcases takes_headerEnd_iff.1 takes' with ⟨_, colon', _⟩ | bare'
    · exact absurd bare (not_takes_brace colon')
    · exact brace_end_le bare' (Cursor.reads_nil c) bare

theorem headerEnd_bare {rest : List Char} (n : Nat) :
    headerEnd ⟨n, " \x7b\n".toList ++ rest⟩ = some ⟨n + 3, rest⟩ := by
  have here : Takes brace ⟨n, " \x7b\n".toList ++ rest⟩ ⟨n + 3, rest⟩ :=
    ⟨_, mem_brace.2 ⟨[' '], by simp, by simp; decide, rfl⟩, Cursor.reads_of_rest rfl⟩
  refine read_longest finds_headerEnd (takes_headerEnd_iff.2 (Or.inr here)) fun e takes => ?_
  rcases takes_headerEnd_iff.1 takes with ⟨e', colon, _⟩ | takes
  · exact absurd here (not_takes_brace colon)
  · exact brace_end_le takes (Cursor.reads_nil _) here

theorem headerEnd_typed {type rest : List Char} (formed : IsReturnType type)
    (free : NoBraceNext rest) (n : Nat) :
    headerEnd ⟨n, ": ".toList ++ type ++ (" \x7b\n".toList ++ rest)⟩ =
      some ⟨n + type.length + 5, rest⟩ := by
  obtain ⟨inside, ⟨x, first, _⟩, _⟩ := formed
  set behind : Cursor := ⟨n + 1, ' ' :: type ++ (" \x7b\n".toList ++ rest)⟩ with behind_eq
  have colon : word ":" (Cursor.skip isBlank ⟨n, ": ".toList ++ type ++ (" \x7b\n".toList ++ rest)⟩) =
      some behind := by
    have skipped := skip_append (p := isBlank) (u := [])
      (t := ": ".toList ++ type ++ (" \x7b\n".toList ++ rest)) n (by simp)
      (by rintro y ⟨⟩; decide)
    rw [List.nil_append] at skipped
    rw [skipped]
    exact word_append ":" n _
  have here : Takes (run isBlank * (runSome isInReturnType * brace)) behind
      ⟨n + type.length + 5, rest⟩ := by
    refine ⟨[' '] ++ (type ++ ([' '] ++ ['\x7b', '\n'])), Language.append_mem_mul ?_
      (Language.append_mem_mul ⟨?_, inside⟩ (mem_brace.2 ⟨[' '], by simp, ?_, rfl⟩)), ?_, ?_⟩
    · intro y member
      obtain rfl := List.mem_singleton.1 member
      decide
    · rintro rfl
      cases first
    · intro y member
      obtain rfl := List.mem_singleton.1 member
      decide
    · simp [behind_eq]
    · simp only [behind_eq, List.length_append, List.length_cons, List.length_nil]
      omega
  exact headerEnd_of_takes free (takes_headerEnd_iff.2 (Or.inl ⟨behind, colon, here⟩))

theorem function_readBy {name params rest : List Char} {returns : Option (List Char)}
    (formed : (function name params returns).WellFormed) (free : NoBraceNext rest) :
    ReadBy .function (function name params returns) rest := by
  obtain ⟨name_formed, plain, returns_formed⟩ :
    IsName name ∧ (∀ x ∈ params, x ≠ ')') ∧ ∀ type ∈ returns, IsReturnType type := formed
  have ended (n : Nat) : headerEnd ⟨n, returnPart returns ++ (" \x7b\n".toList ++ rest)⟩ =
      some ⟨n + (returnPart returns).length + 3, rest⟩ := by
    cases returns with
    | none => exact headerEnd_bare n
    | some type =>
      rw [returnPart, headerEnd_typed (returns_formed type rfl) free n]
      simp only [List.length_append, Option.some.injEq, Cursor.mk.injEq, and_true]
      change n + type.length + 5 = n + (2 + type.length) + 3
      omega
  intro o
  refine ⟨.function ⟨o, o + (function name params returns).text.length⟩, ?_, fun _ _ _ => rfl⟩
  have layout : (function name params returns).text = "export".toList ++ ([' '] ++
      ("function".toList ++ ([' '] ++ (name ++ ("(".toList ++ (params ++ (")".toList ++
        (returnPart returns ++ " \x7b\n".toList)))))))) := by
    change ("export".toList ++ ([' '] ++ ("function".toList ++ [' ']))) ++ name ++ '(' :: params ++
      ')' :: returnPart returns ++ _ = _
    simp only [List.append_assoc, List.cons_append]
    rfl
  set behind := returnPart returns ++ (" \x7b\n".toList ++ rest) with behind_eq
  have gap := space_append (t := "function".toList ++ ([' '] ++ (name ++ ("(".toList ++ (params ++
    (")".toList ++ behind)))))) (o + "export".toList.length) (by rintro x ⟨⟩; decide)
  have named := namedAfter_append (o + "export".toList.length + 1) "function"
    ("(".toList ++ (params ++ (")".toList ++ behind))) name_formed
    (by rintro x ⟨⟩; decide +kernel)
  have no_gap (n : Nat) : Cursor.skip isBlank ⟨n, "(".toList ++ (params ++ (")".toList ++ behind))⟩ =
      ⟨n, "(".toList ++ (params ++ (")".toList ++ behind))⟩ :=
    skip_append (u := []) n (by simp) (by rintro x ⟨⟩; decide)
  have inner (n : Nat) : Cursor.skip (· != ')') ⟨n, params ++ (")".toList ++ behind)⟩ =
      ⟨n + params.length, ")".toList ++ behind⟩ :=
    skip_append n (by simpa using plain) (by rintro x ⟨⟩; decide)
  have start : (function name params returns).text ++ rest = "export".toList ++ ([' '] ++
      ("function".toList ++ ([' '] ++ (name ++ ("(".toList ++ (params ++ (")".toList ++
        behind))))))) := by
    rw [layout, behind_eq]
    simp only [List.append_assoc]
  have stop : o + (function name params returns).text.length = o + "export".toList.length + 1 +
      "function".toList.length + 1 + name.length + "(".toList.length + params.length +
        ")".toList.length + (returnPart returns).length + 3 := by
    simp only [layout, List.length_append, List.length_singleton,
      show " \x7b\n".toList.length = 3 from rfl]
    omega
  rw [start, stop, Form.at?, Form.read, readFunction_eq]
  simp only [word_append, gap, named, no_gap, inner, ended, Option.bind_some]

end SourceSpecs.Block
