import SourceSpecs.Proofs.Answer
import SourceSpecs.Proofs.Literals
/-!
What a form comes to where no more than the next few tokens are known. A survey compares the form
with these tokens. Where it finds that the form does not fit, the form is not read there.
-/
namespace SourceSpecs.Syntax

/-- What is known of a token that comes next. -/
inductive Lead where
  | word (w : List Char)
  | name
  | number
  | string
  | mark (m : List Char)
  deriving DecidableEq, Repr

/-- The marks that begin neither a comment, a string, a pattern, a template nor an escape. -/
def openMarks : List Char := ":;@.,|^&<=>+-*%?!~()[]\x7b\x7d".toList

/-- Only spaces stand between the cursor and a text that is neither blank nor a comment. -/
inductive Before : Cursor → Nat → List Char → Prop where
  | here {o : Nat} {x : Char} {t : List Char} (shown : isSpace x = false) (no_slash : x ≠ '/') :
      Before ⟨o, x :: t⟩ o (x :: t)
  | space {o p : Nat} {t u : List Char} (h : Before ⟨o + 1, t⟩ p u) : Before ⟨o, ' ' :: t⟩ p u

inductive Lead.Shows : Lead → List Char → List Char → Prop where
  | word {w t : List Char} (whole : IsWhole w) (ends : EndsWord t) : Shows (.word w) w t
  | name (n : Name) {t : List Char} (ends : EndsWord t) : Shows .name n.chars t
  | number (n : NumberLiteral) {t : List Char} (starts : n.chars.head?.any Char.isDigit = true)
      (ends : EndsWord t) (no_point : t.head? ≠ some '.') : Shows .number n.chars t
  | string (s : StringLiteral) (t : List Char) : Shows .string s.chars t
  | mark {m t : List Char} (opens : ∃ x ∈ m.head?, x ∈ openMarks) : Shows (.mark m) m t

inductive Meets : List Lead → Cursor → Prop where
  | nil (c : Cursor) : Meets [] c
  | cons {l : Lead} {ls : List Lead} {c : Cursor} {o : Nat} {w t : List Char}
      (before : Before c o (w ++ t)) (shows : l.Shows w t) (rest : Meets ls ⟨o + w.length, t⟩) :
      Meets (l :: ls) c

section Before

variable {c d : Cursor} {o : Nat} {u : List Char}

theorem Before.skipGap (h : Before c o u) : skipGap c = ([], ⟨o, u⟩) := by
  induction h with
  | here shown no_slash =>
    rw [Syntax.skipGap, gap_other no_slash, if_neg (by simp [shown])]
    rfl
  | space h ih =>
    rw [Syntax.skipGap] at ih ⊢
    rwa [gap_other (by decide), if_pos (by decide)]

theorem IsWhole.shown {w : List Char} (whole : IsWhole w) (o : Nat) (v : List Char) :
    Before ⟨o, w ++ v⟩ o (w ++ v) := by
  obtain ⟨x, first, start⟩ := whole.head
  obtain ⟨u, rfl⟩ := List.head?_eq_some_iff.1 first
  constructor
  · simp only [isNameStart, isNamePart, Bool.and_eq_true, Bool.not_eq_true'] at start
    exact start.1.1.2
  · rintro rfl
    exact absurd start (by decide)

theorem Before.stays (h : Before c o u) : Before ⟨o, u⟩ o u := by
  induction h with
  | here shown no_slash => exact .here shown no_slash
  | space h ih => exact ih

theorem Before.not_endsAt (h : Before c o u) (goes_on : u.head? ≠ some '\x7d') (e : Ending) :
    e.endsAt c = false := by
  have open_end : mayEnd e .blank c.rest = false := by
    induction h with
    | @here o x t shown no_slash =>
      have not_brace : x ≠ '\x7d' := by simpa using goes_on
      have not_break : x ≠ '\n' := by
        rintro rfl
        exact absurd shown (by decide)
      rw [mayEnd_other (fun slash => absurd slash no_slash) not_brace not_break, shown]
      rfl
    | space h ih =>
      rw [mayEnd_other (fun slash => absurd slash (by decide)) (by decide) (by decide), ih goes_on]
      rfl
  rw [Ending.endsAt, open_end, Bool.and_false]

theorem Meets.skipGap {ls : List Lead} (meets : Meets ls c) : Meets ls (skipGap c).2 := by
  cases meets with
  | nil => exact .nil _
  | cons before shows rest =>
    rw [before.skipGap]
    exact .cons before.stays shows rest

theorem Meets.space {ls : List Lead} {t : List Char} (meets : Meets ls ⟨o + 1, t⟩) :
    Meets ls ⟨o, ' ' :: t⟩ := by
  cases meets with
  | nil => exact .nil _
  | cons before shows rest => exact .cons before.space shows rest

theorem Before.meets {ls : List Lead} (before : Before c o u) (meets : Meets ls ⟨o, u⟩) : Meets ls c := by
  induction before with
  | here => exact meets
  | space h ih => exact (ih meets).space

end Before

/-- What is known of a reading: that it does not fit or, if it does, which tokens come next behind
    it and whether it is `still`, having read nothing. -/
inductive Verdict where
  | misfit
  | fits (still : Bool) (behind : List Lead)
  | unknown
  deriving DecidableEq, Repr

def Lead.begins : Lead → Char → Bool
  | word w, x => w.head? == some x
  | name, x => isNameStart x
  | number, x => x.isDigit
  | string, x => x == '\'' || x == '"'
  | mark m, x => m.head? == some x

def mayFollow : List Lead → Char → Bool
  | [], _ => true
  | l :: _, x => x == ' ' || l.begins x

/-- Compares a mark that is looked for with one that comes next. -/
def surveyMark (m stops next : List Char) (ls : List Lead) : Verdict :=
  match after? m next with
  | some [] => if stops.any (mayFollow ls) then .unknown else .fits false ls
  | some (x :: _) => if stops.contains x then .misfit else .unknown
  | none =>
    match after? next m with
    | some (x :: _) => if mayFollow ls x then .unknown else .misfit
    | _ => .misfit

def Token.survey (k : Token) (l : Lead) (ls : List Lead) : Verdict :=
  match k, l with
  | .word _ w, .word w' => if w = w' then .fits false ls else .misfit
  | .word _ w, .name => if keywords.contains w then .misfit else .unknown
  | .word _ _, _ => .misfit
  | .symbol m stops, .mark m' => surveyMark m stops m' ls
  | .symbol m _, .string => if m.head?.all Lead.string.begins then .unknown else .misfit
  | .symbol m _, _ => if m.head?.any marks.contains then .misfit else .unknown
  | .name _ except, .word w => if except.contains w then .misfit else .fits false ls
  | .name _ except, .name => if except.all keywords.contains then .fits false ls else .unknown
  | .name _ _, _ => .misfit
  | .number, .number | .string, .string => .fits false ls
  | .number, .mark m => if m.head? = some '.' then .unknown else .misfit
  | .number, _ => .misfit
  | .privateName, _ | .string, _ | .regularExpression, _ => .misfit
  | .condition, .mark m => if m.head? = some '?' then .unknown else .misfit
  | .condition, _ => .misfit
  | .templateText, _ | .escape, _ | .interpreter, _ => .unknown

def goesOn : List Lead → Bool
  | [] => false
  | .mark m :: _ => m.head? != some '\x7d'
  | _ => true

/-- What is known of reading a form before the leads, given what is known of the rules. -/
def Form.survey {ρ : Type} (rules : ρ → List Lead → Verdict) : Form ρ → List Lead → Verdict
  | nothing, ls => .fits true ls
  | token k, l :: ls => k.survey l ls
  | token _, [] | glued _, _ => .unknown
  | seq f g, ls =>
    match f.survey rules ls with
    | .fits still behind =>
      match g.survey rules behind with
      | .fits still' behind => .fits (still && still') behind
      | v => v
    | v => v
  | alt f g, ls =>
    match f.survey rules ls with
    | .misfit => g.survey rules ls
    | v => v
  | many f, ls =>
    match f.survey rules ls with
    | .misfit => .fits true ls
    | _ => .unknown
  | absent f, ls =>
    match f.survey rules ls with
    | .misfit => .fits true ls
    | .fits _ _ => .misfit
    | .unknown => .unknown
  | rule r, ls => rules r ls
  | node _ f, ls =>
    match f.survey rules ls with
    | .fits _ behind => .fits false behind
    | v => v
  | field _ f, ls | within _ f, ls => f.survey rules ls
  | onward f, ls =>
    match f.survey rules ls with
    | .misfit => .misfit
    | v => if goesOn ls then v else .unknown
  | ended _, ls => if goesOn ls then .misfit else .unknown
  | finish, ls => if ls = [] then .unknown else .misfit

theorem Form.survey_rule {ρ : Type} (rules : ρ → List Lead → Verdict) (r : ρ) (ls : List Lead) :
    (rule r).survey rules ls = rules r ls := by
  rw [survey]

def Rule.survey : Nat → Rule → List Lead → Verdict
  | 0, _, _ => .unknown
  | depth + 1, r, ls => r.form.survey (Rule.survey depth) ls

section Token

variable {l : Lead} {ls : List Lead} {w t : List Char} {o : Nat}

def Lead.Class : Lead → Char → Prop
  | word _, x | name, x => isNameStart x = true
  | number, x => x.isDigit = true
  | string, x => x = '\'' ∨ x = '"'
  | mark _, x => x ∈ openMarks

theorem Lead.Shows.first (shows : l.Shows w t) :
    ∃ x u, w ++ t = x :: u ∧ l.begins x = true ∧ l.Class x := by
  have begins {x : Char} (first : x ∈ w.head?) : ∃ u, w ++ t = x :: u := by
    cases w with
    | nil => cases first
    | cons y w =>
      obtain rfl := Option.some.inj first
      exact ⟨w ++ t, rfl⟩
  cases shows with
  | word whole ends =>
    obtain ⟨x, first, start⟩ := whole.head
    obtain ⟨u, text⟩ := begins first
    exact ⟨x, u, text, by simpa [Lead.begins] using first, start⟩
  | name n ends =>
    obtain ⟨x, u, chars, start⟩ := n.begins
    exact ⟨x, u ++ t, by rw [chars]; rfl, start, start⟩
  | number n starts ends no_point =>
    obtain ⟨x, u, chars, _⟩ := n.begins
    rw [chars] at starts
    exact ⟨x, u ++ t, by rw [chars]; rfl, starts, starts⟩
  | string s =>
    obtain ⟨x, u, chars, quote⟩ := s.begins
    exact ⟨x, u ++ t, by rw [chars]; rfl, by simpa [Lead.begins] using quote, quote⟩
  | mark opens =>
    obtain ⟨x, first, member⟩ := opens
    obtain ⟨u, text⟩ := begins first
    exact ⟨x, u, text, by simpa [Lead.begins] using first, member⟩

theorem mayFollow_of_meets {x : Char} (meets : Meets ls ⟨o, x :: t⟩) : mayFollow ls x = true := by
  cases meets with
  | nil => rfl
  | @cons l ls _ p w u before shows rest =>
    obtain ⟨y, v, text, begins, _⟩ := shows.first
    rw [text] at before
    cases before with
    | space => rfl
    | here => rw [mayFollow, begins, Bool.or_true]

/-- What a verdict says of the length of a token. -/
def Verdict.Measures (v : Verdict) (w : List Char) (ls : List Lead) (length : Option Nat) : Prop :=
  match v with
  | .misfit => length = none
  | .fits still behind => length = some w.length ∧ behind = ls ∧ still = false
  | .unknown => True

theorem after?_append_self (m t : List Char) : after? m (m ++ t) = some t :=
  after?_eq_some_iff.2 rfl

/-- A mark that does not come first comes with what follows only if it is longer and goes on so. -/
theorem after?_append_eq_none {m next : List Char} (found : after? m next = none)
    (other : ∀ x u, after? next m = some (x :: u) → t.head? ≠ some x) : after? m (next ++ t) = none := by
  cases whole : after? m (next ++ t) with
  | none => rfl
  | some u =>
    exfalso
    rcases List.append_eq_append_iff.1 (after?_eq_some_iff.1 whole) with ⟨v, rfl, e⟩ | ⟨v, rfl, e⟩
    · cases v with
      | nil =>
        have same := after?_append_self next []
        rw [List.append_nil] at found same
        rw [found] at same
        cases same
      | cons x v => exact other x v (after?_append_self next _) (by rw [e]; rfl)
    · rw [after?_append_self] at found
      cases found

theorem surveyMark_measures (m : List Char) {stops next : List Char} (meets : Meets ls ⟨o, t⟩) :
    (surveyMark m stops next ls).Measures next ls ((Token.symbol m stops).length? (next ++ t)) := by
  rw [surveyMark, Token.length?]
  cases found : after? m next with
  | some behind =>
    obtain rfl := after?_eq_some_iff.1 found
    rw [List.append_assoc, after?_append_self]
    cases behind with
    | nil =>
      simp only [List.nil_append, List.append_nil]
      split
      · trivial
      · rename_i free
        cases t with
        | nil => exact ⟨rfl, rfl, rfl⟩
        | cons x t =>
          have no_stop : stops.contains x = false := by
            apply Bool.eq_false_iff.2
            intro stop
            apply free
            rw [List.any_eq_true]
            exact ⟨x, List.contains_iff_mem.1 stop, mayFollow_of_meets meets⟩
          simp only [no_stop]
          exact ⟨rfl, rfl, rfl⟩
    | cons x behind =>
      simp only [List.cons_append]
      split
      · rename_i stop
        exact rfl
      · trivial
  | none =>
    simp only
    split
    · rename_i x u longer
      split
      · trivial
      · rename_i never
        rw [after?_append_eq_none found]
        · rfl
        · intro y v same first
          obtain rfl := (List.cons.inj (Option.some.inj (longer.symm.trans same))).1
          cases t with
          | nil => cases first
          | cons z t =>
            obtain rfl := Option.some.inj first
            exact never (mayFollow_of_meets meets)
    · rename_i other
      rw [after?_append_eq_none found]
      · rfl
      · intro x u longer
        exact absurd longer (other x u)

theorem wordLength_whole (k : Kind) {word : List Char} (length : nameLength? (w ++ t) = some w.length) :
    (Token.word k word).length? (w ++ t) = if word = w then some w.length else none := by
  rw [wordLength_eq, length]
  by_cases same : word = w
  · subst same
    simp
  · rw [if_neg same, if_neg]
    rintro ⟨lengths, taken⟩
    rw [← Option.some.inj lengths, List.take_left] at taken
    exact same taken.symm

theorem nameLength?_other {x : Char} {u : List Char} (start : isNameStart x = false)
    (no_escape : x ≠ '\\') : nameLength? (x :: u) = none := by
  rw [nameLength?, start, escapeLength_of_ne u no_escape]
  rfl

theorem wordLength_other (k : Kind) {word u : List Char} (length : nameLength? u = none) :
    (Token.word k word).length? u = none := by
  rw [wordLength_eq, length, if_neg]
  rintro ⟨none_read, _⟩
  cases none_read

theorem isNameStart_iff {x : Char} : isNameStart x = true ↔ isNamePart x = true ∧ x.isDigit = false := by
  rw [isNameStart, Bool.and_eq_true, Bool.not_eq_true']

theorem Lead.Class.part {x : Char} (sort : l.Class x) (no_mark : ∀ m, l ≠ .mark m)
    (no_string : l ≠ .string) : isNamePart x = true := by
  cases l with
  | word w => exact (isNameStart_iff.1 sort).1
  | name => exact (isNameStart_iff.1 sort).1
  | number => exact isNamePart_of_isDigit sort
  | string => exact absurd rfl no_string
  | mark m => exact absurd rfl (no_mark m)

theorem Lead.Class.apart {x y : Char} (sort : l.Class x) (special : y ∈ "/\\#'\"".toList)
    (unquoted : l = .string → y ≠ '\'' ∧ y ≠ '"') : x ≠ y := by
  have outside : ∀ y ∈ "/\\#'\"".toList, isNamePart y = false ∧ y.isDigit = false ∧ y ∉ openMarks := by
    decide
  rintro rfl
  obtain ⟨no_part, no_digit, no_mark⟩ := outside x special
  cases l with
  | word w => exact absurd sort (by simp [Class, isNameStart, no_part])
  | name => exact absurd sort (by simp [Class, isNameStart, no_part])
  | number => exact absurd sort (by simp [Class, no_digit])
  | string => exact sort.elim (unquoted rfl).1 (unquoted rfl).2
  | mark m => exact no_mark sort

theorem Lead.Class.plain {x : Char} (sort : l.Class x) : x ≠ '/' ∧ x ≠ '\\' ∧ x ≠ '#' :=
  ⟨sort.apart (by decide) fun _ => by decide, sort.apart (by decide) fun _ => by decide,
    sort.apart (by decide) fun _ => by decide⟩

theorem not_mark_of_isNamePart {x : Char} (part : isNamePart x = true) : marks.contains x = false := by
  rw [isNamePart, Bool.and_eq_true, Bool.not_eq_true'] at part
  exact part.2

theorem symbolLength_other {m stops : List Char} {x : Char} {u : List Char}
    (mark : m.head?.any marks.contains = true) (part : isNamePart x = true) :
    (Token.symbol m stops).length? (x :: u) = none := by
  cases m with
  | nil => cases mark
  | cons y m =>
    have apart : y ≠ x := by
      rintro rfl
      rw [List.head?_cons, Option.any_some, not_mark_of_isNamePart part] at mark
      cases mark
    rw [Token.length?, after?, if_neg apart]

theorem Lead.Shows.no_name (shows : l.Shows w t) (other : (∃ v, l = .mark v) ∨ l = .number ∨ l = .string) :
    nameLength? (w ++ t) = none := by
  obtain ⟨x, u, text, _, sort⟩ := shows.first
  rw [text]
  apply nameLength?_other _ sort.plain.2.1
  rcases other with ⟨v, rfl⟩ | rfl | rfl
  · have checked : ∀ y ∈ openMarks, isNameStart y = false := by decide
    exact checked x sort
  · rw [isNameStart, show x.isDigit = true from sort, Bool.not_true, Bool.and_false]
  · rcases sort with rfl | rfl <;> decide

theorem word_measures (kind : Kind) (word : List Char) (shows : l.Shows w t) :
    ((Token.word kind word).survey l ls).Measures w ls ((Token.word kind word).length? (w ++ t)) := by
  cases shows with
  | word whole ends =>
    rw [Token.survey, wordLength_whole kind (nameLength?_whole whole ends)]
    split
    · exact ⟨rfl, rfl, rfl⟩
    · exact rfl
  | name n ends =>
    rw [Token.survey, wordLength_whole kind (nameLength?_whole n.whole ends)]
    split
    · rename_i keyword
      apply if_neg
      rintro rfl
      exact n.free (List.contains_iff_mem.1 keyword)
    · trivial
  | number n starts ends no_point =>
    exact wordLength_other kind ((Lead.Shows.number n starts ends no_point).no_name (by simp))
  | string s => exact wordLength_other kind ((Lead.Shows.string s t).no_name (by simp))
  | mark opens => exact wordLength_other kind ((Lead.Shows.mark opens).no_name (by simp))

theorem symbol_measures (m stops : List Char) (shows : l.Shows w t) (meets : Meets ls ⟨o, t⟩) :
    ((Token.symbol m stops).survey l ls).Measures w ls ((Token.symbol m stops).length? (w ++ t)) := by
  obtain ⟨x, u, text, begins, sort⟩ := shows.first
  have other (no_mark : ∀ m, l ≠ .mark m) (no_string : l ≠ .string) :
      (if m.head?.any marks.contains then Verdict.misfit else .unknown).Measures w ls
        ((Token.symbol m stops).length? (w ++ t)) := by
    split
    · rename_i mark
      rw [text]
      exact symbolLength_other mark (sort.part no_mark no_string)
    · trivial
  cases shows with
  | word whole ends => exact other (by simp) (by simp)
  | name n ends => exact other (by simp) (by simp)
  | number n starts ends no_point => exact other (by simp) (by simp)
  | string s =>
    change (if m.head?.all Lead.string.begins then Verdict.unknown else .misfit).Measures _ _ _
    split
    · trivial
    · rename_i unquoted
      cases m with
      | nil => exact absurd rfl unquoted
      | cons y m =>
        have apart : y ≠ x := by
          rintro rfl
          exact unquoted begins
        rw [text, Token.length?, after?, if_neg apart]
        exact rfl
  | mark opens => exact surveyMark_measures m meets

theorem name_measures (kind : Kind) (except : List (List Char)) (shows : l.Shows w t) :
    ((Token.name kind except).survey l ls).Measures w ls ((Token.name kind except).length? (w ++ t)) := by
  have unnamed (other : (∃ v, l = .mark v) ∨ l = .number ∨ l = .string) :
      (Token.name kind except).length? (w ++ t) = none := by
    rw [Token.length?, shows.no_name other]
  cases shows with
  | word whole ends =>
    rw [Token.survey, Token.length?, nameLength?_whole whole ends]
    simp only
    rw [List.take_left]
    split
    · exact rfl
    · exact ⟨rfl, rfl, rfl⟩
  | name n ends =>
    rw [Token.survey, Token.length?, nameLength?_whole n.whole ends]
    simp only
    rw [List.take_left]
    split
    · rename_i known
      rw [if_neg]
      · exact ⟨rfl, rfl, rfl⟩
      · intro excepted
        have := List.all_eq_true.1 known _ (List.contains_iff_mem.1 excepted)
        exact n.free (List.contains_iff_mem.1 this)
    · trivial
  | number n starts ends no_point => exact unnamed (by simp)
  | string s => exact unnamed (by simp)
  | mark opens => exact unnamed (by simp)

theorem number_measures (shows : l.Shows w t) :
    (Token.number.survey l ls).Measures w ls (Token.number.length? (w ++ t)) := by
  obtain ⟨x, u, text, begins, sort⟩ := shows.first
  have other (start : isNameStart x = true) : Token.number.length? (w ++ t) = none := by
    obtain ⟨part, no_digit⟩ := isNameStart_iff.1 start
    rw [text]
    apply numberLength?_other no_digit
    rintro rfl
    exact absurd part (by decide)
  cases shows with
  | word whole ends => exact other sort
  | name n ends => exact other sort
  | number n starts ends no_point => exact ⟨numberLength?_append n.whole ends no_point, rfl, rfl⟩
  | string s =>
    rw [text]
    rcases sort with rfl | rfl <;> exact numberLength?_other (by decide) (by decide)
  | mark opens =>
    change (if w.head? = some '.' then Verdict.unknown else .misfit).Measures w ls _
    split
    · trivial
    · rename_i no_dot
      have checked : ∀ y ∈ openMarks, y.isDigit = false := by decide
      rw [text]
      apply numberLength?_other (checked x sort)
      rintro rfl
      exact no_dot (by simpa [Lead.begins] using begins)

theorem string_measures (shows : l.Shows w t) :
    (Token.string.survey l ls).Measures w ls (Token.string.length? (w ++ t)) := by
  obtain ⟨x, u, text, begins, sort⟩ := shows.first
  have other (no_string : l ≠ .string) : Token.string.length? (w ++ t) = none := by
    have no_quote := sort.apart (y := '\'') (by decide) fun string => absurd string no_string
    have no_quotes := sort.apart (y := '"') (by decide) fun string => absurd string no_string
    rw [text, Token.length?_string, stringLength?, if_neg (by simp [no_quote, no_quotes])]
  cases shows with
  | string s => exact ⟨stringLength?_append s.whole, rfl, rfl⟩
  | _ => exact other (by simp)

/-- A question mark may be that of an access, which the survey does not tell apart. -/
theorem condition_measures (shows : l.Shows w t) :
    (Token.condition.survey l ls).Measures w ls (Token.condition.length? (w ++ t)) := by
  obtain ⟨x, u, text, begins, sort⟩ := shows.first
  have other (no_question : x ≠ '?') : Token.condition.length? (w ++ t) = none := by
    rw [text, Token.length?.eq_def]
    split <;> simp_all
  have apart (no_mark : ∀ m, l ≠ .mark m) (no_string : l ≠ .string) : x ≠ '?' := by
    rintro rfl
    exact absurd (sort.part no_mark no_string) (by decide)
  cases shows with
  | word whole ends => exact other (apart (by simp) (by simp))
  | name n ends => exact other (apart (by simp) (by simp))
  | number n starts ends no_point => exact other (apart (by simp) (by simp))
  | string s =>
    apply other
    rintro rfl
    exact sort.elim (by decide) (by decide)
  | mark opens =>
    change (if w.head? = some '?' then Verdict.unknown else .misfit).Measures w ls _
    split
    · trivial
    · rename_i no_question
      apply other
      rintro rfl
      exact no_question (by simpa [Lead.begins] using begins)

/-- A token is as long as the survey says. -/
theorem Token.survey_measures (k : Token) (shows : l.Shows w t) (meets : Meets ls ⟨o, t⟩) :
    (k.survey l ls).Measures w ls (k.length? (w ++ t)) := by
  obtain ⟨x, u, text, _, sort⟩ := shows.first
  obtain ⟨no_slash, _, no_hash⟩ := sort.plain
  cases k with
  | word kind word => exact word_measures kind word shows
  | symbol m stops => exact symbol_measures m stops shows meets
  | name kind except => exact name_measures kind except shows
  | privateName =>
    rw [text, Token.length?.eq_def]
    split <;> simp_all [Token.survey, Verdict.Measures]
  | number => exact number_measures shows
  | string => exact string_measures shows
  | regularExpression =>
    rw [text, Token.length?, regularExpressionLength?.eq_def]
    split <;> simp_all [Token.survey, Verdict.Measures]
  | condition => exact condition_measures shows
  | templateText => trivial
  | escape => trivial
  | interpreter => trivial

end Token

/-- Whether the answer of a reading is as the verdict says. -/
def Verdict.Holds (v : Verdict) (c : Cursor) (a : Option (List Tree × Cursor)) : Prop :=
  match v with
  | .misfit => a = none
  | .fits still behind =>
    ∃ nodes d, a = some (nodes, d) ∧ Meets behind d ∧ (still = true → nodes = [] ∧ d = c)
  | .unknown => True

theorem Verdict.Holds.cases {v : Verdict} {c : Cursor} {a : Option (List Tree × Cursor)}
    (h : v.Holds c a) :
    v = .unknown ∨ (v = .misfit ∧ a = none) ∨
      ∃ still behind nodes d, v = .fits still behind ∧ a = some (nodes, d) ∧ Meets behind d ∧
        (still = true → nodes = [] ∧ d = c) := by
  cases v with
  | unknown => exact Or.inl rfl
  | misfit => exact Or.inr (Or.inl ⟨rfl, h⟩)
  | fits still behind =>
    obtain ⟨nodes, d, read, further⟩ := h
    exact Or.inr (Or.inr ⟨still, behind, nodes, d, rfl, read, further⟩)

section Form

variable {l : Lead} {ls : List Lead} {w t : List Char} {o : Nat} {c : Cursor}

theorem Lead.Shows.before (shows : l.Shows w t) : Before ⟨o, w ++ t⟩ o (w ++ t) := by
  obtain ⟨x, u, text, _, sort⟩ := shows.first
  rw [text]
  apply Before.here
  · cases l with
    | mark m =>
      have checked : ∀ y ∈ openMarks, isSpace y = false := by decide
      exact checked x sort
    | string => rcases sort with rfl | rfl <;> decide
    | _ =>
      have part := sort.part (by simp) (by simp)
      rw [isNamePart, Bool.and_eq_true, Bool.and_eq_true, Bool.not_eq_true'] at part
      exact part.1.2
  · exact sort.plain.1

theorem Lead.Shows.meets (shows : l.Shows w t) (o : Nat) : Meets [l] ⟨o, w ++ t⟩ :=
  .cons shows.before shows (.nil _)

theorem meets_mark {x : Char} (known : x ∈ openMarks) (o : Nat) (v : List Char) :
    Meets [.mark [x]] ⟨o, x :: v⟩ := (Lead.Shows.mark (m := [x]) ⟨x, rfl, known⟩).meets o

theorem not_endsAt_of_meets (meets : Meets ls c) (on : goesOn ls = true) (e : Ending) :
    e.endsAt c = false := by
  cases meets with
  | nil => cases on
  | cons before shows rest =>
    apply before.not_endsAt
    obtain ⟨x, u, text, begins, sort⟩ := shows.first
    rw [text, List.head?_cons]
    intro brace
    obtain rfl := Option.some.inj brace
    cases shows with
    | mark opens =>
      rw [goesOn, bne_iff_ne] at on
      exact on (by simpa [Lead.begins] using begins)
    | string s => exact sort.elim (by decide) (by decide)
    | _ => exact absurd (sort.part (by simp) (by simp)) (by decide)

theorem Token.survey_holds (k : Token) (e : Ending) (meets : Meets (l :: ls) c) :
    (k.survey l ls).Holds c ((Form.token k).reads? e c) := by
  cases meets with
  | cons before shows rest =>
    have measures := k.survey_measures shows rest
    rw [reads?_token, before.skipGap]
    simp only [Token.read, List.nil_append]
    cases found : k.survey l ls with
    | unknown => trivial
    | misfit =>
      rw [found] at measures
      rw [show k.length? _ = none from measures]
      exact rfl
    | fits still behind =>
      rw [found] at measures
      obtain ⟨length, rfl, rfl⟩ := measures
      rw [length, Option.map_some, Option.map_some, List.drop_left]
      exact ⟨_, _, rfl, rest, by simp⟩

section Holds

variable {rules : Rule → List Lead → Verdict} {f g : Form Rule} {e e' : Ending}

theorem holds_seq (first : (f.survey rules ls).Holds c (f.reads? e c))
    (second : ∀ behind d, Meets behind d → (g.survey rules behind).Holds d (g.reads? e d)) :
    ((Form.seq f g).survey rules ls).Holds c ((Form.seq f g).reads? e c) := by
  rw [Form.survey, reads?_seq]
  rcases first.cases with unknown | ⟨misfit, no⟩ | ⟨still, behind, nodes, d, fits, read, meets, stays⟩
  · rw [unknown]
    trivial
  · rw [misfit, no]
    exact rfl
  · rw [fits, read, Option.bind_some]
    simp only
    rcases (second behind d meets).cases with unknown' | ⟨misfit', no'⟩ |
      ⟨still', behind', more, b, fits', read', meets', stays'⟩
    · rw [unknown']
      trivial
    · rw [misfit', no']
      exact rfl
    · rw [fits', read']
      refine ⟨nodes ++ more, b, rfl, meets', ?_⟩
      intro both
      rw [Bool.and_eq_true] at both
      obtain ⟨rfl, rfl⟩ := stays both.1
      obtain ⟨rfl, rfl⟩ := stays' both.2
      exact ⟨rfl, rfl⟩

theorem holds_alt (first : (f.survey rules ls).Holds c (f.reads? e c))
    (second : (g.survey rules ls).Holds c (g.reads? e c)) :
    ((Form.alt f g).survey rules ls).Holds c ((Form.alt f g).reads? e c) := by
  rw [Form.survey, reads?_alt]
  rcases first.cases with unknown | ⟨misfit, no⟩ | ⟨still, behind, nodes, d, fits, read, further⟩
  · rw [unknown]
    trivial
  · rw [misfit, no, Option.none_or]
    exact second
  · rw [fits, read, Option.some_or]
    exact ⟨nodes, d, rfl, further⟩

theorem holds_many (meets : Meets ls c) (inner : (f.survey rules ls).Holds c (f.reads? e c)) :
    ((Form.many f).survey rules ls).Holds c ((Form.many f).reads? e c) := by
  rw [Form.survey, reads?_many]
  rcases inner.cases with unknown | ⟨misfit, no⟩ | ⟨still, behind, nodes, d, fits, _⟩
  · rw [unknown]
    trivial
  · rw [misfit, no]
    exact ⟨[], c, rfl, meets, by simp⟩
  · rw [fits]
    trivial

theorem holds_absent (meets : Meets ls c) (inner : (f.survey rules ls).Holds c (f.reads? e c)) :
    ((Form.absent f).survey rules ls).Holds c ((Form.absent f).reads? e c) := by
  rw [Form.survey, reads?_absent]
  rcases inner.cases with unknown | ⟨misfit, no⟩ | ⟨still, behind, nodes, d, fits, read, _⟩
  · rw [unknown]
    trivial
  · rw [misfit, no]
    exact ⟨[], c, rfl, meets, by simp⟩
  · rw [fits, read]
    exact rfl

theorem holds_node {k : Kind}
    (inner : (f.survey rules ls).Holds (skipGap c).2 (f.reads? e (skipGap c).2)) :
    ((Form.node k f).survey rules ls).Holds c ((Form.node k f).reads? e c) := by
  rw [Form.survey, reads?_node]
  rcases inner.cases with unknown | ⟨misfit, no⟩ | ⟨still, behind, nodes, d, fits, read, meets, _⟩
  · rw [unknown]
    trivial
  · rw [misfit, no]
    exact rfl
  · rw [fits, read]
    exact ⟨_, d, rfl, meets, by simp⟩

theorem holds_field {x : Field} (inner : (f.survey rules ls).Holds c (f.reads? e c)) :
    ((Form.field x f).survey rules ls).Holds c ((Form.field x f).reads? e c) := by
  rw [Form.survey, reads?_field]
  rcases inner.cases with unknown | ⟨misfit, no⟩ | ⟨still, behind, nodes, d, fits, read, meets, stays⟩
  · rw [unknown]
    trivial
  · rw [misfit, no]
    exact rfl
  · rw [fits, read]
    refine ⟨markLast x nodes, d, rfl, meets, ?_⟩
    intro idle
    obtain ⟨rfl, rfl⟩ := stays idle
    exact ⟨rfl, rfl⟩

theorem holds_onward (meets : Meets ls c) (inner : (f.survey rules ls).Holds c (f.reads? e c)) :
    ((Form.onward f).survey rules ls).Holds c ((Form.onward f).reads? e c) := by
  rw [Form.survey, reads?_onward]
  rcases inner.cases with unknown | ⟨misfit, no⟩ | ⟨still, behind, nodes, d, fits, _⟩
  · rw [unknown]
    simp only
    split <;> trivial
  · rw [misfit, no, ite_self]
    exact rfl
  · rw [fits] at inner ⊢
    simp only
    split
    · rename_i on
      rw [not_endsAt_of_meets meets on]
      exact inner
    · trivial

theorem holds_ended (meets : Meets ls c) :
    ((Form.ended e').survey rules ls).Holds c ((Form.ended e').reads? e c) := by
  rw [Form.survey, reads?_ended]
  split
  · rename_i on
    rw [not_endsAt_of_meets meets on]
    exact rfl
  · trivial

theorem holds_finish (meets : Meets ls c) :
    (Form.finish.survey rules ls).Holds c (Form.finish.reads? e c) := by
  rw [Form.survey, reads?_finish]
  cases meets with
  | nil => trivial
  | cons before shows rest =>
    obtain ⟨x, u, text, _⟩ := shows.first
    rw [if_neg (by simp), before.skipGap, if_neg (by simp [text])]
    exact rfl

end Holds

/-- A reading comes to what a survey says of it, if the rules do. -/
theorem Form.survey_holds {rules : Rule → List Lead → Verdict}
    (calls : ∀ r e c ls, Meets ls c → (rules r ls).Holds c (r.form.reads? e c)) (f : Form Rule)
    (e : Ending) (meets : Meets ls c) : (f.survey rules ls).Holds c (f.reads? e c) := by
  induction f generalizing e c ls with
  | nothing => exact ⟨[], c, rfl, meets, by simp⟩
  | token k =>
    cases ls with
    | nil => trivial
    | cons l ls => exact k.survey_holds e meets
  | glued k => trivial
  | seq f g ihf ihg => exact holds_seq (ihf e meets) fun behind d meets' => ihg e meets'
  | alt f g ihf ihg => exact holds_alt (ihf e meets) (ihg e meets)
  | many f ih => exact holds_many meets (ih e meets)
  | absent f ih => exact holds_absent meets (ih e meets)
  | rule r =>
    rw [Form.survey_rule, reads?_rule]
    exact calls r e c ls meets
  | node k f ih => exact holds_node (ih e meets.skipGap)
  | field x f ih => exact holds_field (ih e meets)
  | within e' f ih => exact ih e' meets
  | onward f ih => exact holds_onward meets (ih e meets)
  | ended e' => exact holds_ended meets
  | finish => exact holds_finish meets

theorem Rule.survey_holds (depth : Nat) (r : Rule) (e : Ending) (meets : Meets ls c) :
    (r.survey depth ls).Holds c (r.form.reads? e c) := by
  induction depth generalizing r e c ls with
  | zero => trivial
  | succ depth ih => exact Form.survey_holds (fun r e c ls meets => ih r e meets) r.form e meets

def Form.misfits (f : Form Rule) (ls : List Lead) : Bool :=
  f.survey (Rule.survey ruleCount) ls == .misfit

def Form.idles (f : Form Rule) (ls : List Lead) : Bool :=
  match f.survey (Rule.survey ruleCount) ls with
  | .fits still _ => still
  | _ => false

variable {f : Form Rule} {e : Ending}

theorem reads?_of_misfits (meets : Meets ls c) (misfits : f.misfits ls = true) : f.reads? e c = none := by
  have holds := f.survey_holds (fun r e c ls meets => Rule.survey_holds ruleCount r e meets) e meets
  rwa [eq_of_beq misfits] at holds

theorem reads?_of_idles (meets : Meets ls c) (idles : f.idles ls = true) :
    f.reads? e c = some ([], c) := by
  have holds := f.survey_holds (fun r e c ls meets => Rule.survey_holds ruleCount r e meets) e meets
  unfold Form.idles at idles
  split at idles
  · rename_i still behind found
    rw [found] at holds
    obtain ⟨nodes, d, read, _, stays⟩ := holds
    obtain ⟨rfl, rfl⟩ := stays idles
    exact read
  · cases idles

end Form

end SourceSpecs.Syntax
