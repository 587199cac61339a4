import SourceSpecs.Proofs.Composition
/-!
Readings keep to the brackets of a text: what stands between two brackets of the grammar is read
from a bracket of the text to the one that closes it.
-/
namespace SourceSpecs.Syntax

/-- The text closes the brackets, the innermost first, and `v` follows the last of them. Beside
    brackets it has strings and plain characters. -/
inductive Closes (v : List Char) : List Opening → List Char → Prop where
  | done : Closes v [] v
  | closer {b : Opening} {os : List Opening} {t : List Char} (h : Closes v os t) :
      Closes v (b :: os) (b.closer :: t)
  | opener {b b' : Opening} {os : List Opening} {c : Char} {t : List Char} (opens : openedBy c = some b')
      (h : Closes v (b' :: b :: os) t) : Closes v (b :: os) (c :: t)
  | plain {b : Opening} {os : List Opening} {c : Char} {t : List Char} (plain : isPlain c = true)
      (h : Closes v (b :: os) t) : Closes v (b :: os) (c :: t)
  | string {b : Opening} {os : List Opening} {t : List Char} (s : StringLiteral)
      (h : Closes v (b :: os) t) : Closes v (b :: os) (s.chars ++ t)

def Balanced (w : List Char) : Prop :=
  ∀ v b os t, Closes v (b :: os) t → Closes v (b :: os) (w ++ t)

section Balanced

variable {w u : List Char}

theorem balanced_nil : Balanced [] := fun _ _ _ _ h => h

theorem Balanced.append (h : Balanced w) (k : Balanced u) : Balanced (w ++ u) := by
  intro v b os t closes
  rw [List.append_assoc]
  exact h v b os _ (k v b os t closes)

theorem balanced_of_plain (plain : ∀ x ∈ w, isPlain x = true) : Balanced w := by
  intro v b os t closes
  induction w with
  | nil => exact closes
  | cons x w ih =>
    exact .plain (plain x List.mem_cons_self) (ih fun y member => plain y (List.mem_cons_of_mem x member))

theorem StringLiteral.balanced (s : StringLiteral) : Balanced s.chars := fun _ _ _ _ h => .string s h

theorem Balanced.enclose {c : Char} {b : Opening} (opens : openedBy c = some b) (h : Balanced w) :
    Balanced (c :: (w ++ [b.closer])) := by
  intro v b' os t closes
  rw [List.cons_append, List.append_assoc]
  exact .opener opens (h v b _ _ (.closer closes))

theorem balanced_flatMap {α : Type} {f : α → List Char} {as : List α} (all : ∀ a ∈ as, Balanced (f a)) :
    Balanced (as.flatMap f) := by
  induction as with
  | nil => exact balanced_nil
  | cons a as ih =>
    rw [List.flatMap_cons]
    exact (all a List.mem_cons_self).append (ih fun b member => all b (List.mem_cons_of_mem a member))

theorem balanced_setApart {separator : List Char} {ws : List (List Char)} (apart : Balanced separator)
    (all : ∀ w ∈ ws, Balanced w) : Balanced (setApart separator ws) := by
  cases ws with
  | nil => exact balanced_nil
  | cons w ws =>
    exact (all w List.mem_cons_self).append
      (balanced_flatMap fun u member => apart.append (all u (List.mem_cons_of_mem w member)))

end Balanced

def foreign : List Char := ['/', '\\', '\x60']

section Head

variable {v t : List Char} {os : List Opening} {b : Opening} {c : Char}

theorem Closes.cases_head (h : Closes v os (c :: t)) (some_open : os ≠ []) :
    (∃ b bs, os = b :: bs ∧ c = b.closer ∧ Closes v bs t) ∨
      (∃ b, openedBy c = some b ∧ Closes v (b :: os) t) ∨ (isPlain c = true ∧ Closes v os t) ∨
      ∃ (s : StringLiteral) (u : List Char), (c = '\'' ∨ c = '"') ∧ c :: t = s.chars ++ u ∧ Closes v os u := by
  generalize text : c :: t = w at h
  cases h with
  | done => exact absurd rfl some_open
  | closer h =>
    obtain ⟨rfl, rfl⟩ := List.cons.inj text
    exact Or.inl ⟨_, _, rfl, rfl, h⟩
  | opener opens h =>
    obtain ⟨rfl, rfl⟩ := List.cons.inj text
    exact Or.inr (Or.inl ⟨_, opens, h⟩)
  | plain plain h =>
    obtain ⟨rfl, rfl⟩ := List.cons.inj text
    exact Or.inr (Or.inr (Or.inl ⟨plain, h⟩))
  | string s h =>
    obtain ⟨x, u, chars, quote⟩ := s.begins
    rw [chars] at text
    obtain ⟨rfl, _⟩ := List.cons.inj text
    exact Or.inr (Or.inr (Or.inr ⟨s, _, quote, rfl, h⟩))

theorem Opening.closer_sort (b : Opening) : isPlain b.closer = false ∧ openedBy b.closer = none ∧
    b.closer ≠ '\'' ∧ b.closer ≠ '"' ∧ b.closer ∉ foreign := by
  cases b <;> decide

theorem openedBy_sort (opens : openedBy c = some b) :
    isPlain c = false ∧ c ≠ '\'' ∧ c ≠ '"' ∧ c ∉ foreign := by
  have brackets : ∀ c ∈ ['(', '[', '\x7b'], isPlain c = false ∧ c ≠ '\'' ∧ c ≠ '"' ∧ c ∉ foreign := by
    decide
  apply brackets
  unfold openedBy at opens
  split at opens
  · simp_all
  · split at opens
    · simp_all
    · split at opens
      · simp_all
      · cases opens

theorem Closes.past_plain (h : Closes v os (c :: t)) (some_open : os ≠ []) (plain : isPlain c = true) :
    Closes v os t := by
  rcases h.cases_head some_open with ⟨b, _, _, rfl, _⟩ | ⟨b, opens, _⟩ | ⟨_, h⟩ | ⟨_, _, quote, _⟩
  · rw [b.closer_sort.1] at plain
    cases plain
  · rw [(openedBy_sort opens).1] at plain
    cases plain
  · exact h
  · rcases quote with rfl | rfl <;> exact absurd plain (by decide)

theorem Closes.past_opener (h : Closes v os (c :: t)) (some_open : os ≠ []) (opens : openedBy c = some b) :
    Closes v (b :: os) t := by
  obtain ⟨not_plain, no_quote, no_quotes, _⟩ := openedBy_sort opens
  rcases h.cases_head some_open with ⟨b', _, _, rfl, _⟩ | ⟨b', opens', h⟩ | ⟨plain, _⟩ | ⟨_, _, quote, _⟩
  · rw [b'.closer_sort.2.1] at opens
    cases opens
  · rwa [← Option.some.inj (opens'.symm.trans opens)]
  · rw [not_plain] at plain
    cases plain
  · exact absurd quote (by simp [no_quote, no_quotes])

theorem Closes.past_closer (h : Closes v (b :: os) (b.closer :: t)) : Closes v os t := by
  obtain ⟨not_plain, opens_none, no_quote, no_quotes, _⟩ := b.closer_sort
  rcases h.cases_head (by simp) with ⟨_, _, same, _, h⟩ | ⟨_, opens, _⟩ | ⟨plain, _⟩ | ⟨_, _, quote, _⟩
  · rwa [(List.cons.inj same).2]
  · rw [opens_none] at opens
    cases opens
  · rw [not_plain] at plain
    cases plain
  · exact absurd quote (by simp [no_quote, no_quotes])

theorem Closes.past_string (h : Closes v os (c :: t)) (some_open : os ≠ []) (quote : c = '\'' ∨ c = '"') :
    ∃ (s : StringLiteral) (u : List Char), c :: t = s.chars ++ u ∧ Closes v os u := by
  rcases h.cases_head some_open with ⟨b, _, _, rfl, _⟩ | ⟨b, opens, _⟩ | ⟨plain, _⟩ | ⟨s, u, _, text, h⟩
  · obtain ⟨_, _, no_quote, no_quotes, _⟩ := b.closer_sort
    exact absurd quote (by simp [no_quote, no_quotes])
  · obtain ⟨_, no_quote, no_quotes, _⟩ := openedBy_sort opens
    exact absurd quote (by simp [no_quote, no_quotes])
  · rcases quote with rfl | rfl <;> exact absurd plain (by decide)
  · exact ⟨s, u, text, h⟩

theorem Closes.not_foreign (h : Closes v os (c :: t)) (some_open : os ≠ []) : c ∉ foreign := by
  rcases h.cases_head some_open with ⟨b, _, _, rfl, _⟩ | ⟨b, opens, _⟩ | ⟨plain, _⟩ | ⟨s, u, quote, _⟩
  · exact b.closer_sort.2.2.2.2
  · exact (openedBy_sort opens).2.2.2
  · have marks : ∀ x ∈ foreign, isPlain x = false := by decide
    intro member
    rw [marks c member] at plain
    cases plain
  · rcases quote with rfl | rfl <;> decide

theorem Closes.drop_plain {u : List Char} (h : Closes v os (u ++ t)) (some_open : os ≠ [])
    (plain : ∀ x ∈ u, isPlain x = true) : Closes v os t := by
  induction u with
  | nil => exact h
  | cons x u ih =>
    exact ih (h.past_plain some_open (plain x List.mem_cons_self))
      fun y member => plain y (List.mem_cons_of_mem x member)

theorem skipGap_closes {d : Cursor} (h : Closes v os d.rest) (some_open : os ≠ []) :
    Closes v os (skipGap d).2.rest := by
  obtain ⟨o, t⟩ := d
  induction t generalizing o with
  | nil => exact h
  | cons c t ih =>
    have no_slash : c ≠ '/' := by
      rintro rfl
      exact h.not_foreign some_open (by decide)
    simp only [skipGap] at ih ⊢
    rw [gap_other no_slash]
    by_cases space : isSpace c = true
    · rw [if_pos space]
      exact ih (o + 1) (h.past_plain some_open (isPlain_of_isSpace space))
    · rwa [if_neg space]

theorem nameLength_closes (h : Closes v os t) (some_open : os ≠ []) :
    Closes v os (t.drop (nameLength 0 t)) := by
  induction t with
  | nil => exact h
  | cons c t ih =>
    rw [nameLength_cons]
    split
    · rename_i part
      exact ih (h.past_plain some_open (isPlain_of_isInline (isInline_of_isNamePart part)))
    · have no_escape : escapeLength (c :: t) = 0 := by
        apply escapeLength_of_ne
        rintro rfl
        exact h.not_foreign some_open (by decide)
      rw [if_pos no_escape]
      exact h

end Head

/-- What a reading does to the brackets that were opened before it, the innermost first: it comes to
    no end, it leaves these open, or that is not known. -/
inductive Effect where
  | never
  | leaves (opened : List Opening)
  | unknown
  deriving DecidableEq

namespace Effect

def join : Effect → Effect → Effect
  | never, x | x, never => x
  | leaves os, leaves os' => if os = os' then leaves os else unknown
  | _, _ => unknown

/-- Whether a reading with this effect may leave the text. `around` holds the brackets that are open
    around what has been opened. -/
def Holds (v : List Char) (around : List Opening) (t : List Char) : Effect → Prop
  | never => False
  | leaves os => Closes v (os ++ around) t
  | unknown => True

variable {v t : List Char} {around : List Opening} {x y : Effect}

theorem Holds.join_left (h : x.Holds v around t) : (x.join y).Holds v around t := by
  cases x with
  | never => exact h.elim
  | unknown => cases y <;> trivial
  | leaves os =>
    cases y with
    | never => exact h
    | unknown => trivial
    | leaves os' =>
      rw [join]
      split
      · exact h
      · trivial

theorem join_comm (x y : Effect) : x.join y = y.join x := by
  cases x <;> cases y <;> simp only [join]
  split <;> split <;> simp_all

theorem Holds.join_right (h : y.Holds v around t) : (x.join y).Holds v around t :=
  join_comm y x ▸ h.join_left

end Effect

def markEffect : List Char → List Opening → Effect
  | [], os => .leaves os
  | c :: m, os =>
    if isPlain c then markEffect m os
    else if c ∈ foreign then .never
    else match openedBy c with
      | some b => markEffect m (b :: os)
      | none =>
        match os with
        | b :: os => if b.closer = c then markEffect m os else .unknown
        | [] => .unknown

def Token.effect : Token → List Opening → Effect
  | .word _ w, os => if w.all isPlain then .leaves os else .unknown
  | .symbol m _, os => markEffect m os
  | .regularExpression, _ | .escape, _ => .never
  | .templateText, _ | .interpreter, _ => .unknown
  | _, os => .leaves os

def Form.effect {ρ : Type} (rules : ρ → Bool) : Form ρ → List Opening → Effect
  | nothing, os | absent _, os | ended _, os | finish, os => .leaves os
  | token k, os | glued k, os => k.effect os
  | seq f g, os =>
    match f.effect rules os with
    | .leaves os => g.effect rules os
    | x => x
  | alt f g, os => (f.effect rules os).join (g.effect rules os)
  | many f, os => (f.effect rules os).join (.leaves os)
  | rule r, os => if rules r then .leaves os else .unknown
  | node _ f, os | field _ f, os | within _ f, os | onward f, os => f.effect rules os

section Effect

variable {v t : List Char} {os around : List Opening} {n : Nat}

theorem markEffect_holds (m : List Char) (some_open : around ≠ [])
    (h : Closes v (os ++ around) (m ++ t)) : (markEffect m os).Holds v around t := by
  have open_around (os : List Opening) : os ++ around ≠ [] := by simp [some_open]
  induction m generalizing os with
  | nil => exact h
  | cons c m ih =>
    rw [List.cons_append] at h
    rw [markEffect.eq_def]
    simp only
    split
    · rename_i plain
      exact ih (h.past_plain (open_around os) plain)
    · split
      · rename_i member
        exact absurd member (h.not_foreign (open_around os))
      · cases opener : openedBy c with
        | some b => exact ih (h.past_opener (open_around os) opener)
        | none =>
          cases os with
          | nil => trivial
          | cons b os =>
            simp only
            split
            · rename_i closing
              subst closing
              exact ih h.past_closer
            · trivial

theorem nameLength?_closes {bs : List Opening} (h : Closes v bs t) (some_open : bs ≠ [])
    (length : nameLength? t = some n) : Closes v bs (t.drop n) := by
  unfold nameLength? at length
  split at length
  · cases length
  · split at length
    · obtain rfl := Option.some.inj length
      exact nameLength_closes h some_open
    · cases length

theorem word_closes {bs : List Opening} {kind : Kind} {w : List Char} (h : Closes v bs t)
    (some_open : bs ≠ []) (plain : w.all isPlain = true) (length : (Token.word kind w).length? t = some n) :
    Closes v bs (t.drop n) := by
  obtain ⟨u, rfl, rfl⟩ := exists_of_wordLength length
  rw [List.drop_left]
  exact h.drop_plain some_open (List.all_eq_true.1 plain)

theorem number_closes {bs : List Opening} (h : Closes v bs t) (some_open : bs ≠ [])
    (length : Token.number.length? t = some n) : Closes v bs (t.drop n) := by
  have run := inline_numberLength.run t
  rw [(longest_of_number length).1] at run
  rw [← List.take_append_drop n t] at h
  exact h.drop_plain some_open fun x member => isPlain_of_isInline (run.2 x member)

theorem string_closes {bs : List Opening} (h : Closes v bs t) (some_open : bs ≠ [])
    (length : Token.string.length? t = some n) : Closes v bs (t.drop n) := by
  obtain ⟨c, u, rfl, quote, _⟩ := exists_of_string length
  obtain ⟨s, behind, text, h⟩ := h.past_string some_open quote
  rw [Token.length?_string, text, stringLength?_append s.whole] at length
  obtain rfl := Option.some.inj length
  rw [text, List.drop_left]
  exact h

theorem Token.effect_holds (k : Token) (some_open : around ≠ []) (h : Closes v (os ++ around) t)
    (length : k.length? t = some n) : (k.effect os).Holds v around (t.drop n) := by
  have opened : os ++ around ≠ [] := by simp [some_open]
  cases k with
  | word kind w =>
    rw [Token.effect]
    split
    · rename_i plain
      exact word_closes h opened plain length
    · trivial
  | symbol m stops =>
    obtain ⟨u, rfl, rfl⟩ := exists_of_symbolLength length
    rw [Token.effect, List.drop_left]
    exact markEffect_holds m some_open h
  | name kind except => exact nameLength?_closes h opened (nameLength?_of_name length)
  | privateName =>
    obtain ⟨u, m, rfl, found, rfl⟩ := exists_of_privateName length
    have behind : Closes v (os ++ around) (u.drop m) :=
      nameLength?_closes (h.past_plain opened (by decide)) opened found
    exact behind
  | number => exact number_closes h opened length
  | string => exact string_closes h opened length
  | regularExpression =>
    obtain ⟨u, rfl⟩ := exists_of_regularExpression length
    exact absurd (by decide) (h.not_foreign opened)
  | templateText => trivial
  | escape =>
    obtain ⟨u, rfl, _⟩ := exists_of_escape length
    exact absurd (by decide) (h.not_foreign opened)
  | condition =>
    obtain ⟨u, rfl, rfl⟩ := exists_of_condition length
    exact h.past_plain opened (by decide)
  | interpreter => trivial

variable {ρ : Type} {rules : ρ → Bool} {limit : Nat} {call : ρ → Ending → Cursor → Outcome} {e : Ending}
  {c d : Cursor} {nodes : List Tree}

/-- Each round of a repetition leaves the brackets that the repetition has begun with. -/
theorem many_effect {f : Form ρ}
    (round : ∀ c d nodes, Closes v (os ++ around) c.rest → f.read limit call e c = .fits nodes d →
      (f.effect rules os).Holds v around d.rest)
    (h : Closes v (os ++ around) c.rest) (read : (Form.many f).read limit call e c = .fits nodes d) :
    ((Form.many f).effect rules os).Holds v around d.rest := by
  obtain ⟨_, rounds⟩ := Form.rounds_of_read_many read
  rw [Form.effect]
  by_cases unknown : (f.effect rules os).join (.leaves os) = .unknown
  · rw [unknown]
    trivial
  · have keeps {c d : Cursor} {nodes : List Tree} (h : Closes v (os ++ around) c.rest)
        (reads : f.read limit call e c = .fits nodes d) : Closes v (os ++ around) d.rest := by
      have holds := round c d nodes h reads
      cases found : f.effect rules os with
      | never =>
        rw [found] at holds
        exact holds.elim
      | unknown =>
        rw [found] at unknown
        exact absurd rfl unknown
      | leaves os' =>
        rw [found] at holds unknown
        rw [Effect.join] at unknown
        split at unknown
        · rename_i same
          exact same ▸ holds
        · exact absurd rfl unknown
    apply Effect.Holds.join_right
    clear read unknown
    induction rounds with
    | done c => exact h
    | round reads _ _ further => exact further (keeps h reads)

/-- A form that fits has the effect that it is said to have, if the rules leave the brackets. -/
theorem Form.read_effect (some_open : around ≠ [])
    (calls : ∀ r os e c nodes d, rules r = true → Closes v (os ++ around) c.rest →
      call r e c = .fits nodes d → Closes v (os ++ around) d.rest)
    (f : Form ρ) (h : Closes v (os ++ around) c.rest) (read : f.read limit call e c = .fits nodes d) :
    (f.effect rules os).Holds v around d.rest := by
  have opened (os : List Opening) : os ++ around ≠ [] := by simp [some_open]
  induction f generalizing os e c d nodes with
  | nothing =>
    cases read
    exact h
  | token k =>
    obtain ⟨t, read_k, rfl⟩ := of_read_token read
    obtain ⟨n, length, same⟩ := Option.map_eq_some_iff.1 read_k
    cases same
    exact k.effect_holds some_open (skipGap_closes h (opened os)) length
  | glued k =>
    obtain ⟨t, read_k, rfl⟩ := of_read_glued read
    obtain ⟨n, length, same⟩ := Option.map_eq_some_iff.1 read_k
    cases same
    exact k.effect_holds some_open h length
  | seq f g ihf ihg =>
    obtain ⟨front, m, back, read_f, read_g, rfl⟩ := of_read_seq read
    have first := ihf h read_f
    rw [effect]
    cases found : f.effect rules os with
    | never =>
      rw [found] at first
      exact first.elim
    | unknown => trivial
    | leaves os' =>
      rw [found] at first
      exact ihg first read_g
  | alt f g ihf ihg =>
    rcases of_read_alt read with read_f | ⟨_, read_g⟩
    · exact (ihf h read_f).join_left
    · exact (ihg h read_g).join_right
  | many f ih => exact many_effect (fun _ _ _ inside reads => ih inside reads) h read
  | absent f ih =>
    obtain ⟨_, _, rfl⟩ := of_read_absent read
    exact h
  | rule r =>
    rw [effect]
    split
    · rename_i known
      exact calls r os e c nodes d known h read
    · trivial
  | node k f ih =>
    obtain ⟨cs, read_f, rfl⟩ := of_read_node read
    exact ih (skipGap_closes h (opened os)) read_f
  | field x f ih =>
    obtain ⟨inner, read_f, rfl⟩ := of_read_field read
    exact ih h read_f
  | within e' f ih => exact ih h read
  | onward f ih => exact ih h (of_read_onward read).2
  | ended e' =>
    obtain ⟨_, _, rfl⟩ := of_read_ended read
    exact h
  | finish =>
    obtain ⟨_, _, rfl⟩ := of_read_finish read
    exact skipGap_closes h (opened os)

end Effect

namespace Rule

def isPart (r : Rule) : Bool := r != .program

theorem effect_form (r : Rule) (part : r.isPart = true) :
    r.form.effect isPart [] = .never ∨ r.form.effect isPart [] = .leaves [] := by
  have checked : (all.all fun r => !r.isPart || (r.form.effect isPart [] == .never) ||
      (r.form.effect isPart [] == .leaves [])) = true := by decide +kernel
  have here := List.all_eq_true.1 checked r (mem_all r)
  simpa [part] using here

end Rule

section Rules

variable {v : List Char} {os around : List Opening} {limit depth : Nat} {r : Rule} {f : Form Rule}
  {e : Ending} {c d : Cursor} {nodes : List Tree}

/-- What a rule reads leaves no bracket open and closes none that was open before. -/
theorem readRule_closes (part : r.isPart = true) (some_open : os ≠ []) (h : Closes v os c.rest)
    (read : readRule Rule.form limit depth r e c = .fits nodes d) : Closes v os d.rest := by
  induction depth generalizing r os e c d nodes with
  | zero => cases read
  | succ depth ih =>
    rw [readRule] at read
    have holds : (r.form.effect Rule.isPart []).Holds v os d.rest := Form.read_effect some_open
      (fun r os' e c nodes d part h read => ih part (by simp [some_open]) h read) r.form h read
    rcases r.effect_form part with effect | effect
    · rw [effect] at holds
      exact holds.elim
    · rw [effect] at holds
      exact holds

theorem reads?_effect (some_open : around ≠ []) (h : Closes v (os ++ around) c.rest)
    (reads : f.reads? e c = some (nodes, d)) : (f.effect Rule.isPart os).Holds v around d.rest := by
  have read := read_eq (f := f) (e := e) (Nat.le_refl c.rest.length)
  rw [reads] at read
  exact Form.read_effect some_open
    (fun r os e c nodes d part h read => readRule_closes part (by simp [some_open]) h read) f h read

/-- What is read in parentheses ends where the text closes them. -/
theorem reads_enclosed_ends {o : Nat} {t : List Char} (inside : f.effect Rule.isPart [] = .leaves [])
    (before : Before c o ('(' :: t)) (closes : Closes v [.parenthesis] t)
    (reads : (Grammar.enclosed "(" f ")").reads? e c = some (nodes, d)) : d.rest = v := by
  have opening : (Grammar.sym "(").reads? e c = _ := reads_mark (u := ['(']) before (by simp)
  obtain ⟨_, b, _, front, closing⟩ := exists_of_reads_seq reads
  obtain ⟨_, b', _, opened, inner⟩ := exists_of_reads_seq front
  obtain rfl : (⟨o + 1, t⟩ : Cursor) = b' := congrArg Prod.snd (Option.some.inj (opening.symm.trans opened))
  have behind : (f.effect Rule.isPart []).Holds v [.parenthesis] b.rest := by
    apply reads?_effect (by simp) _ inner
    exact closes
  rw [inside] at behind
  have gap := skipGap_closes behind (by simp)
  obtain ⟨n, length, rest⟩ := exists_of_reads_token closing
  obtain ⟨u, text, rfl⟩ := exists_of_symbolLength length
  rw [text] at gap rest
  have closed : Closes v [] u := Closes.past_closer (b := .parenthesis) gap
  cases closed
  rw [rest]
  rfl

end Rules

end SourceSpecs.Syntax
