import SourceSpecs.Proofs.Composition
import SourceSpecs.Proofs.WrittenForm
/-!
What a reading begins with: behind blanks and comments stands the first character of a token. The
grammar is checked for the tokens that it can be, rule by rule, and what is read begins with the first
character of one of them.
-/
namespace SourceSpecs

def Cursor.On (S : List Char) (c : Cursor) : Prop := c.rest = S.drop c.offset

theorem Cursor.On.reach {S : List Char} {c d : Cursor} (on : c.On S) (reaches : c.Reaches d) :
    d.On S := by
  obtain ⟨between, whole, offset⟩ := reaches
  rw [On, whole] at on
  rw [On, offset, Syntax.drop_behind on.symm]

namespace Syntax

open Text

section Gaps

variable {g : Gap} {o : Nat} {t S : List Char} {c : Cursor}

/-- Nothing is left to pass over behind blanks and comments. -/
theorem gap_rests {r : List Span × Cursor} (passed : gap g o t = r)
    (begun : ∀ start, g = .blockComment start → gap .blank start.offset start.rest = r) :
    gap .blank r.2.offset r.2.rest = ([], r.2) := by
  fun_induction gap g o t generalizing r with
  | case1 o t ih => exact ih passed (by simp)
  | case2 o t ih =>
    refine ih passed ?_
    intro start same
    obtain rfl := Gap.blockComment.inj same
    exact passed
  | case3 o x t _ _ _ ih => exact ih passed (by simp)
  | case4 o x t not_line not_block space =>
    subst passed
    by_cases slash : x = '/'
    · subst slash
      exact gap_slash (no_comment_of_ne (fun u => not_line u rfl) fun u => not_block u rfl)
    · rw [gap_other slash, if_neg space]
  | case5 o =>
    subst passed
    rfl
  | case6 start o x t _ comments next e ih =>
    subst passed
    exact ih (r := (comments, next)) e (by simp)
  | case7 start o x t _ ih => exact ih passed (by simp)
  | case8 start o =>
    subst passed
    rfl
  | case9 start o t comments next e ih =>
    subst passed
    exact ih (r := (comments, next)) e (by simp)
  | case10 start o x t not_end ih => exact ih passed begun
  | case11 start o =>
    subst passed
    exact begun start rfl

theorem skipGap_skipGap (c : Cursor) : skipGap (skipGap c).2 = ([], (skipGap c).2) := by
  have rests := gap_rests (g := .blank) (o := c.offset) (t := c.rest) rfl (by simp)
  rw [skipGap, skipGap]
  simp only [rests, List.map_nil]

theorem gap_comments (on : c.On S) (begun : g.From c ⟨o, t⟩)
    (slash : g ≠ .blank → c.rest.head? = some '/') :
    ∀ s ∈ (gap g o t).1, (S.drop s.start).head? = some '/' := by
  have first (opened : c.rest.head? = some '/') : (S.drop c.offset).head? = some '/' := by
    rw [← on, opened]
  fun_induction gap g o t generalizing c with
  | case1 o t ih =>
    obtain rfl : c = _ := begun
    exact ih on ⟨rfl, by simp, reaches_cons_cons _ _ _ _⟩ (fun _ => rfl) first
  | case2 o t ih =>
    obtain rfl : c = _ := begun
    exact ih on ⟨rfl, by simp, reaches_cons_cons _ _ _ _⟩ (fun _ => rfl) first
  | case3 o x t _ _ _ ih =>
    obtain rfl : c = _ := begun
    have behind := on.reach (reaches_cons o x t)
    exact ih behind rfl (by simp) fun opened => by rw [← behind, opened]
  | case4 o x t _ _ _ => simp
  | case5 o => simp
  | case6 start o x t _ comments next e ih =>
    obtain ⟨rfl, _, reaches⟩ := begun
    have behind := on.reach (reaches.trans (reaches_cons o x t))
    have later := ih behind rfl (by simp) fun opened => by rw [← behind, opened]
    rw [e] at later
    exact List.forall_mem_cons.2 ⟨first (slash (by simp)), later⟩
  | case7 start o x t _ ih =>
    obtain ⟨rfl, before, reaches⟩ := begun
    exact ih on ⟨rfl, Nat.lt_succ_of_lt before, reaches.trans (reaches_cons o x t)⟩ (fun _ =>
      slash (by simp)) first
  | case8 start o =>
    obtain ⟨rfl, _, _⟩ := begun
    exact List.forall_mem_singleton.2 (first (slash (by simp)))
  | case9 start o t comments next e ih =>
    obtain ⟨rfl, _, reaches⟩ := begun
    have behind := on.reach (reaches.trans (reaches_cons_cons o _ _ t))
    have later := ih behind rfl (by simp) fun opened => by rw [← behind, opened]
    rw [e] at later
    exact List.forall_mem_cons.2 ⟨first (slash (by simp)), later⟩
  | case10 start o x t _ ih =>
    obtain ⟨rfl, before, reaches⟩ := begun
    exact ih on ⟨rfl, Nat.lt_succ_of_lt before, reaches.trans (reaches_cons o x t)⟩ (fun _ =>
      slash (by simp)) first
  | case11 start o => simp

end Gaps

/-- Whether every text of the token begins with a character of the class, which the first characters
    of names belong to. -/
def Token.begins (p : Char → Bool) : Token → Bool
  | .word _ w | .symbol w _ => w.head?.any p
  | .name _ _ | .escape => p '\\'
  | .privateName | .interpreter => p '#'
  | .number => p '.' && "0123456789".toList.all p
  | .string => p '\'' && p '"'
  | .regularExpression => p '/'
  | .templateText => false
  | .condition => p '?'

section Token

variable {p : Char → Bool} {t : List Char} {n : Nat}

theorem nameLength?_begins (names : ∀ x, isNameStart x = true → p x = true) (escape : p '\\' = true)
    (length : nameLength? t = some n) : ∃ x ∈ t.head?, p x = true := by
  cases t with
  | nil => cases length
  | cons x u =>
    refine ⟨x, rfl, ?_⟩
    by_cases start : isNameStart x = true
    · exact names x start
    by_cases slash : x = '\\'
    · exact slash ▸ escape
    rw [nameLength?_other (Bool.eq_false_iff.2 start) slash] at length
    cases length

theorem numberLength?_begins (point : p '.' = true) (digits : "0123456789".toList.all p = true)
    (length : numberLength? t = some n) : ∃ x ∈ t.head?, p x = true := by
  cases t with
  | nil =>
    rw [show numberLength? [] = none by decide] at length
    cases length
  | cons x u =>
    refine ⟨x, rfl, ?_⟩
    by_cases digit : x.isDigit = true
    · exact List.all_eq_true.1 digits x (mem_digits digit)
    by_cases dot : x = '.'
    · exact dot ▸ point
    rw [numberLength?_other (Bool.eq_false_iff.2 digit) dot] at length
    cases length

theorem begins_of_written {w u : List Char} (first : w.head?.any p = true) : ∃ x ∈ (w ++ u).head?, p x = true := by
  cases w with
  | nil => cases first
  | cons x w => exact ⟨x, rfl, first⟩

theorem Token.begins_of_length? {k : Token} (names : ∀ x, isNameStart x = true → p x = true)
    (begins : k.begins p = true) (length : k.length? t = some n) : ∃ x ∈ t.head?, p x = true := by
  cases k with
  | word kind w =>
    obtain ⟨u, rfl, _⟩ := exists_of_wordLength length
    exact begins_of_written begins
  | symbol m stops =>
    obtain ⟨u, rfl, _⟩ := exists_of_symbolLength length
    exact begins_of_written begins
  | name kind except => exact nameLength?_begins names begins (nameLength?_of_name length)
  | privateName =>
    obtain ⟨u, m, rfl, _⟩ := exists_of_privateName length
    exact ⟨'#', rfl, begins⟩
  | number =>
    rw [Token.begins, Bool.and_eq_true] at begins
    exact numberLength?_begins begins.1 begins.2 length
  | string =>
    rw [Token.begins, Bool.and_eq_true] at begins
    obtain ⟨c, u, rfl, quote, _⟩ := exists_of_string length
    refine ⟨c, rfl, ?_⟩
    rcases quote with rfl | rfl
    · exact begins.1
    · exact begins.2
  | regularExpression =>
    obtain ⟨u, rfl⟩ := exists_of_regularExpression length
    exact ⟨'/', rfl, begins⟩
  | templateText => cases begins
  | escape =>
    obtain ⟨u, rfl, _⟩ := exists_of_escape length
    exact ⟨'\\', rfl, begins⟩
  | condition =>
    obtain ⟨u, rfl, _⟩ := exists_of_condition length
    exact ⟨'?', rfl, begins⟩
  | interpreter =>
    obtain ⟨u, rfl, _⟩ := exists_of_interpreter length
    exact ⟨'#', rfl, begins⟩

end Token

structure Opens (p : Char → Bool) (c d : Cursor) : Prop where
  first : ∃ x ∈ (skipGap c).2.rest.head?, p x = true
  beyond : (skipGap c).2.offset < d.offset

theorem Opens.further {p : Char → Bool} {c d b : Cursor} (h : Opens p c d) (le : d.offset ≤ b.offset) :
    Opens p c b :=
  ⟨h.first, Nat.lt_of_lt_of_le h.beyond le⟩

namespace Form

variable {ρ : Type}

/-- Whether the form begins with a character of the class wherever it takes something in, given which
    rules take something in and which begin so. -/
def begins (p : Char → Bool) (eating opening : ρ → Bool) : Form ρ → Bool
  | token k => k.begins p && k.isProper
  | seq f g => f.begins p eating opening && (f.eats eating || g.begins p eating opening)
  | alt f g => f.begins p eating opening && g.begins p eating opening
  | node _ f => f.begins p eating opening && f.eats eating
  | many f | field _ f | within _ f | onward f => f.begins p eating opening
  | rule r => opening r
  | nothing | absent _ | ended _ => true
  | glued _ | finish => false

variable {p : Char → Bool} {eating opening : ρ → Bool} {limit : Nat}
  {call : ρ → Ending → Cursor → Outcome}

theorem offset_le_of_rounds
    (moves : ∀ r e c nodes d, call r e c = .fits nodes d → Moves (eating r) c d) {f : Form ρ}
    {e : Ending} {n : Nat} {c d : Cursor} {nodes : List Tree}
    (rounds : Rounds (f.read limit call e) n c nodes d) : c.offset ≤ d.offset := by
  induction rounds with
  | done => exact Nat.le_refl _
  | round reads _ _ ih => exact Nat.le_trans (read_moves moves f reads).reaches.offset_le ih

theorem opens_of_read (names : ∀ x, isNameStart x = true → p x = true)
    (moves : ∀ r e c nodes d, call r e c = .fits nodes d → Moves (eating r) c d)
    (calls : ∀ r, opening r = true → ∀ e c nodes d, call r e c = .fits nodes d →
      c.offset < d.offset → Opens p c d)
    (f : Form ρ) (begins : f.begins p eating opening = true) {e : Ending} {c d : Cursor}
    {nodes : List Tree} (h : f.read limit call e c = .fits nodes d) (progress : c.offset < d.offset) :
    Opens p c d := by
  induction f generalizing e c d nodes with
  | nothing =>
    cases h
    exact absurd progress (Nat.lt_irrefl _)
  | token k =>
    rw [Form.begins, Bool.and_eq_true] at begins
    obtain ⟨t, read_k, rfl⟩ := of_read_token h
    refine ⟨?_, (Token.read_moves read_k).progress begins.2⟩
    obtain ⟨n, length, _⟩ := Option.map_eq_some_iff.1 read_k
    exact Token.begins_of_length? names begins.1 length
  | glued k => cases begins
  | seq f g ihf ihg =>
    rw [Form.begins, Bool.and_eq_true, Bool.or_eq_true] at begins
    obtain ⟨front, m, back, read_f, read_g, rfl⟩ := of_read_seq h
    have moved := read_moves moves f read_f
    have behind := (read_moves moves g read_g).reaches.offset_le
    by_cases first : c.offset < m.offset
    · exact (ihf begins.1 read_f first).further behind
    · have same : m = c := moved.reaches.eq_of_offset_le (Nat.not_lt.1 first)
      have idle : ¬ f.eats eating = true := fun eats => first (moved.progress eats)
      rw [same] at read_g
      exact ihg (begins.2.resolve_left idle) read_g progress
  | alt f g ihf ihg =>
    rw [Form.begins, Bool.and_eq_true] at begins
    rcases of_read_alt h with read_f | ⟨_, read_g⟩
    · exact ihf begins.1 read_f progress
    · exact ihg begins.2 read_g progress
  | many f ih =>
    obtain ⟨_, rounds⟩ := rounds_of_read_many h
    cases rounds with
    | done => exact absurd progress (Nat.lt_irrefl _)
    | @round n _ m _ _ _ reads apart later =>
      have moved := (read_moves moves f reads).reaches.offset_le
      exact (ih begins reads (by omega)).further (offset_le_of_rounds moves later)
  | absent f ih =>
    obtain ⟨_, _, rfl⟩ := of_read_absent h
    exact absurd progress (Nat.lt_irrefl _)
  | rule r => exact calls r begins e c nodes d h progress
  | node k f ih =>
    rw [Form.begins, Bool.and_eq_true] at begins
    obtain ⟨cs, read_f, rfl⟩ := of_read_node h
    have inner := ih begins.1 read_f ((read_moves moves f read_f).progress begins.2)
    refine ⟨?_, ?_⟩
    · have first := inner.first
      rwa [skipGap_skipGap] at first
    · have beyond := inner.beyond
      rwa [skipGap_skipGap] at beyond
  | field x f ih =>
    obtain ⟨inner, read_f, rfl⟩ := of_read_field h
    exact ih begins read_f progress
  | within e' f ih => exact ih begins h progress
  | onward f ih => exact ih begins (of_read_onward h).2 progress
  | ended e' =>
    obtain ⟨_, _, rfl⟩ := of_read_ended h
    exact absurd progress (Nat.lt_irrefl _)
  | finish => cases begins

end Form

section Rules

variable {p : Char → Bool} {opening : Rule → Bool} {limit depth : Nat} {r : Rule} {e : Ending}
  {c d : Cursor} {nodes : List Tree}

theorem opens_of_readRule (names : ∀ x, isNameStart x = true → p x = true)
    (closed : ∀ r, opening r = true → r.form.begins p Rule.eats opening = true)
    (opened : opening r = true) (h : readRule Rule.form limit depth r e c = .fits nodes d)
    (progress : c.offset < d.offset) : Opens p c d := by
  induction depth generalizing r e c d nodes with
  | zero => cases h
  | succ depth ih =>
    rw [readRule] at h
    exact Form.opens_of_read names (fun r e c nodes d inner => readRule_moves inner)
      (fun r opened e c nodes d => ih opened) r.form (closed r opened) h progress

theorem opens_of_reads? {f : Form Rule} (names : ∀ x, isNameStart x = true → p x = true)
    (closed : ∀ r, opening r = true → r.form.begins p Rule.eats opening = true)
    (begins : f.begins p Rule.eats opening = true) (h : f.reads? e c = some (nodes, d))
    (progress : c.offset < d.offset) : Opens p c d := by
  have read := read_eq (f := f) (e := e) (Nat.le_refl c.rest.length)
  rw [h] at read
  exact Form.opens_of_read names (fun r e c nodes d inner => readRule_moves inner)
    (fun r opened e c nodes d => opens_of_readRule names closed opened) f begins read progress

def isShown (x : Char) : Bool := !isBlank x

theorem isShown_of_isNameStart {x : Char} (start : isNameStart x = true) : isShown x = true := by
  have part := (isNameStart_iff.1 start).1
  rw [isNamePart, Bool.and_eq_true, Bool.and_eq_true, decide_eq_true_eq] at part
  obtain ⟨⟨printed, no_space⟩, _⟩ := part
  rw [isShown, Bool.not_eq_true']
  refine Bool.eq_false_iff.2 ?_
  intro blank
  have code := Declaration.toNat_mem_blankCodes blank
  simp only [isSpace, Bool.not_eq_true', Bool.or_eq_false_iff, Bool.and_eq_false_iff,
    decide_eq_false_iff_not, beq_eq_false_iff_ne] at no_space
  simp only [Declaration.blankCodes, List.mem_cons, List.not_mem_nil, or_false] at code
  omega

theorem Rule.begins_shown (r : Rule) (part : r.eats = true) :
    r.form.begins isShown eats eats = true := by
  have checked : (all.all fun r => !r.eats || r.form.begins isShown eats eats) = true := by
    decide +kernel
  simpa [part] using List.all_eq_true.1 checked r (mem_all r)

/-- What a part of the grammar reads begins with no blank, blanks and comments in front of it apart. -/
theorem shown_of_reads? {f : Form Rule} (begins : f.begins isShown Rule.eats Rule.eats = true)
    (h : f.reads? e c = some (nodes, d)) (progress : c.offset < d.offset) : Opens isShown c d :=
  opens_of_reads? (fun _ => isShown_of_isNameStart) Rule.begins_shown begins h progress

end Rules

end Syntax

end SourceSpecs
