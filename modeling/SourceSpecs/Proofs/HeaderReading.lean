import SourceSpecs.Proofs.SourceReading
/-!
Reading a function header. The return type is read as far as an opening brace can still follow, so
a header is the longest text of its form. Then all forms together: where they read, and how far.
-/
namespace SourceSpecs.Declaration

open Text

def brace : Language Char := runSome isBlank * exactly "\x7b\n"

theorem mem_brace {w : List Char} :
    w ∈ brace ↔ ∃ g, g ≠ [] ∧ (∀ x ∈ g, isBlank x = true) ∧ w = g ++ ['\x7b', '\n'] := by
  simp only [brace, Language.mem_mul]
  constructor
  · rintro ⟨g, ⟨nonempty, blank⟩, _, rfl, rfl⟩
    exact ⟨g, nonempty, blank, rfl⟩
  · rintro ⟨g, nonempty, blank, rfl⟩
    exact ⟨g, ⟨nonempty, blank⟩, _, rfl, rfl⟩

theorem takes_openingBrace_iff {c d : Cursor} : Takes brace c d ↔ openingBrace c = some d := by
  have outside : BeginsOutside isBlank (exactly "\x7b\n") := beginsOutside_exactly ⟨'\x7b', rfl, rfl⟩
  simp only [brace, takes_runSome_mul_iff outside, takes_exactly_iff, openingBrace,
    Option.bind_eq_some_iff]

theorem brace_beyond_blanks {g v s t : List Char} (blank : ∀ x ∈ g, isBlank x = true)
    (same : v ++ '\x7b' :: s = g ++ '\x7b' :: t) : g.length ≤ v.length := by
  by_contra less
  obtain ⟨w, rfl⟩ := List.prefix_of_prefix_length_le ⟨_, same⟩ ⟨_, rfl⟩ (by omega)
  cases w with
  | nil => simp at less
  | cons x w =>
    simp only [List.append_assoc, List.append_cancel_left_eq, List.cons_append,
      List.cons.injEq] at same
    exact absurd (blank x (by simp)) (by rw [← same.1]; decide)

theorem brace_end_le {c e d x : Cursor} {u : List Char} (takes : Takes brace c x)
    (between : c.Reads u e) (takes' : Takes brace e d) : x.offset ≤ d.offset := by
  obtain ⟨_, member, reads⟩ := takes
  obtain ⟨g, _, blank, rfl⟩ := mem_brace.1 member
  obtain ⟨_, member', reads'⟩ := takes'
  obtain ⟨g', _, _, rfl⟩ := mem_brace.1 member'
  have through := between.append reads'
  have same : (u ++ g') ++ '\x7b' :: '\n' :: d.rest = g ++ '\x7b' :: '\n' :: x.rest := by
    simpa using through.1.symm.trans reads.1
  have := brace_beyond_blanks blank same
  have := reads.2
  have := through.2
  simp only [List.length_append, List.length_cons, List.length_nil] at *
  omega

theorem runSome_eq_mul (p : Char → Bool) : runSome p = oneOf p * run p := by
  ext w
  simp only [Language.mem_mul]
  constructor
  · rintro ⟨nonempty, inside⟩
    cases w with
    | nil => exact absurd rfl nonempty
    | cons x w =>
      exact ⟨[x], ⟨x, inside x List.mem_cons_self, rfl⟩, w,
        fun y member => inside y (List.mem_cons_of_mem x member), rfl⟩
  · rintro ⟨_, ⟨x, px, rfl⟩, w, inside, rfl⟩
    exact ⟨by simp, by simpa using ⟨px, inside⟩⟩

theorem finds_openingBrace : Finds (· ≥ ·) id openingBrace brace := by
  refine finds_of_iff ?_ takes_openingBrace_iff
  exact Nat.le_refl

theorem finds_returnType :
    Finds (· ≥ ·) id returnType (run isBlank * (runSome isInReturnType * brace)) := by
  have extent := finds_lastAlong (p := isInReturnType) finds_openingBrace
    fun takes between _ best => brace_end_le takes between best.1
  have written := finds_oneOf_mul isInReturnType fun _ => extent
  rw [← mul_assoc, ← runSome_eq_mul] at written
  refine finds_lastAlong written ?_
  intro c e d x u takes between blank best
  obtain ⟨f, ⟨t, ⟨_, inside⟩, reads⟩, takes⟩ := takes_mul_iff.1 takes
  by_cases less : u.length < t.length
  · -- what is left of the return type is one from the later start on
    obtain ⟨s, rfl, rest⟩ := between.prefix reads (by omega)
    refine best.2 x (takes_mul_iff.2 ⟨f, ⟨s, ⟨?_, fun y member => inside y ?_⟩, rest⟩, takes⟩)
    · rintro rfl
      simp at less
    · exact List.mem_append_right u member
  · -- otherwise both end at the same brace
    obtain ⟨s, rfl, rest⟩ := reads.prefix between (by omega)
    obtain ⟨e', ⟨t', _, reads'⟩, takes'⟩ := takes_mul_iff.1 best.1
    exact brace_end_le takes (rest.append reads') takes'

theorem takes_headerEnd_iff {c d : Cursor} :
    Takes (run isBlank * (maybe (exactly ":" * run isBlank * runSome isInReturnType) * brace)) c d ↔
      (∃ e, word ":" (c.skip isBlank) = some e ∧
        Takes (run isBlank * (runSome isInReturnType * brace)) e d) ∨ Takes brace c d := by
  have absorbed : run isBlank * brace = brace := by
    ext w
    simp only [Language.mem_mul, mem_brace]
    constructor
    · rintro ⟨u, blank, _, ⟨g, nonempty, blank', rfl⟩, rfl⟩
      refine ⟨u ++ g, by simp [nonempty], ?_, by simp⟩
      intro x member
      rcases List.mem_append.1 member with member | member
      · exact blank x member
      · exact blank' x member
    · rintro ⟨g, nonempty, blank, rfl⟩
      exact ⟨[], fun _ member => absurd member List.not_mem_nil, _, ⟨g, nonempty, blank, rfl⟩, rfl⟩
  have outside : BeginsOutside isBlank (exactly ":") := beginsOutside_exactly ⟨':', rfl, rfl⟩
  simp only [maybe, add_mul, mul_add, one_mul, absorbed, mul_assoc]
  have annotated := takes_run_mul_iff (d := d) (c := c) (beginsOutside_mul outside
    (run isBlank * (runSome isInReturnType * brace)))
  rw [takes_exactly_mul_iff] at annotated
  rw [← annotated, or_comm]
  simp only [Takes, Language.mem_add, or_and_right, exists_or]

theorem not_takes_brace {c d e : Cursor} (colon : word ":" (c.skip isBlank) = some e) :
    ¬ Takes brace c d := by
  rintro ⟨_, member, reads⟩
  obtain ⟨g, _, blank, rfl⟩ := mem_brace.1 member
  have skipped : c.skip isBlank = ⟨c.offset + g.length, '\x7b' :: '\n' :: d.rest⟩ :=
    Cursor.skip_eq_iff.2 ⟨g, ⟨by simpa using reads.1, rfl⟩, blank, by simp; decide⟩
  have first := (Cursor.past?_eq_some_iff.1 colon).1
  simp [skipped] at first

theorem finds_headerEnd : Finds (· ≥ ·) id headerEnd
    (run isBlank * (maybe (exactly ":" * run isBlank * runSome isInReturnType) * brace)) := by
  constructor
  · intro c d found
    simp only [Best, takes_headerEnd_iff]
    simp only [headerEnd] at found
    cases colon : word ":" (c.skip isBlank) with
    | some e =>
      rw [colon] at found
      simp only [not_takes_brace colon, or_false, Option.some.injEq, exists_eq_left']
      exact finds_returnType.best found
    | none =>
      rw [colon] at found
      simp only [reduceCtorEq, false_and, exists_false, false_or]
      exact finds_openingBrace.best found
  · intro c d takes
    simp only [headerEnd]
    rcases takes_headerEnd_iff.1 takes with ⟨e, colon, takes⟩ | takes
    · rw [colon]
      exact finds_returnType.found takes
    · cases colon : word ":" (c.skip isBlank) with
      | some e => exact absurd takes (not_takes_brace colon)
      | none => exact finds_openingBrace.found takes

theorem finds_function : Finds (· ≥ ·) Prod.snd Form.function.at? Form.function.written := by
  have ended (start : Nat) : Finds (· ≥ ·) Prod.snd (fun c => (headerEnd c).bind fun d =>
      some (Capture.function ⟨start, d.offset⟩, d)) _ :=
    finds_some _ (fun _ => rfl) finds_headerEnd
  have closing := fun start => finds_run_mul (p := (· != ')'))
    (beginsOutside_mul (beginsOutside_exactly ⟨')', rfl, rfl⟩) _) (finds_exactly_mul ")" (ended start))
  have opening := fun start => finds_exactly_mul "(" (closing start)
  have outside {p : Char → Bool} (h : p '(' = false) (L : Language Char) :
      BeginsOutside p (exactly "(" * L) := beginsOutside_mul (beginsOutside_exactly ⟨'(', rfl, h⟩) L
  have named := fun start => finds_namedAfter "function" (beginsOutside_run_mul
    (q := isBlank) (fun x => not_isWord_of_isBlank) (outside (by decide +kernel) _))
    fun _ => finds_run_mul (outside (by decide) _) (opening start)
  have keyword : BeginsOutside isBlank (exactly "function") :=
    beginsOutside_exactly ⟨'f', rfl, rfl⟩
  have all := finds_from fun c => finds_exactly_mul "export"
    (finds_runSome_mul (beginsOutside_mul keyword _) (named c.offset))
  have read : Form.function.at? = fun c => (word "export" c).bind fun d =>
      (d.skipSome? isBlank).bind fun d => (namedAfter "function" d).bind fun r =>
        (word "(" (r.2.skip isBlank)).bind fun d => (word ")" (d.skip (· != ')'))).bind fun d =>
          (headerEnd d).bind fun d => some (Capture.function ⟨c.offset, d.offset⟩, d) := by
    funext c
    rw [Form.at?, Form.read, readFunction_eq]
  rw [read]
  simpa only [Form.written, Form.parts, List.prod_cons, List.prod_nil, mul_one, brace] using all

/-- A header is read as far as it can be, any other form no farther than it has to be. -/
def Form.prefers : Form → Nat → Nat → Prop
  | .function => (· ≥ ·)
  | _ => (· ≤ ·)

theorem finds_form (f : Form) : Finds f.prefers Prod.snd f.at? f.written := by
  cases f with
  | function => exact finds_function
  | interface => exact finds_interface
  | typeAlias => exact finds_typeAlias
  | importFrom => exact finds_importFrom
  | require => exact finds_require

theorem at?_isSome_iff {f : Form} {c : Cursor} :
    (f.at? c).isSome ↔ ∃ d, Takes f.written c d := by
  constructor
  · intro found
    obtain ⟨b, read⟩ := Option.isSome_iff_exists.1 found
    exact ⟨b.2, ((finds_form f).best read).1⟩
  · rintro ⟨d, takes⟩
    exact Option.isSome_iff_ne_none.2 ((finds_form f).found takes)

theorem written_ends_line {f : Form} {w : List Char} (h : w ∈ f.written) :
    w.getLast? = some '\n' := by
  have last : ∃ L v, f.written = L * exactly v ∧ v.toList.getLast? = some '\n' := by
    refine ⟨f.parts.dropLast.prod, ?_⟩
    cases f with
    | function => exact ⟨"\x7b\n", by simp [Form.written, Form.parts, mul_assoc], rfl⟩
    | interface => exact ⟨"\n\x7d\n", by simp [Form.written, Form.parts, mul_assoc], rfl⟩
    | typeAlias => exact ⟨";\n", by simp [Form.written, Form.parts, mul_assoc], rfl⟩
    | importFrom => exact ⟨"\n", by simp [Form.written, Form.parts, mul_assoc], rfl⟩
    | require => exact ⟨"\n", by simp [Form.written, Form.parts, mul_assoc], rfl⟩
  obtain ⟨L, v, written, ends⟩ := last
  rw [written] at h
  obtain ⟨u, _, _, rfl, rfl⟩ := Language.mem_mul.1 h
  simp [List.getLast?_append, ends]

end SourceSpecs.Declaration
