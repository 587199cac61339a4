import SourceSpecs.Proofs.LexemeReading
import SourceSpecs.Syntax.Form
/-!
Places in a text that stands among others: at its start, inside, and at its border, behind its last
brace. A token is read inside the text as in the text alone, and whether it can be read at the
border is a question of the token.
-/
namespace SourceSpecs.Syntax

inductive Place where
  /-- Before the text's first character. Among other texts there is a line break to be read before. -/
  | start
  | inside
  | template
  | border
  /-- Before the end of a text or, unless it is the last one, before an export. -/
  | beyond (last : Bool)
  deriving DecidableEq, Repr

def Place.all : List Place := [.start, .inside, .template, .border, .beyond false, .beyond true]

theorem Place.mem_all (p : Place) : p ∈ Place.all := by
  cases p with
  | beyond last => cases last <;> decide
  | _ => decide

def Place.isWithin : Place → Bool
  | .inside | .template | .border => true
  | .start | .beyond _ => false

abbrev Leads := List (List Opening × Place)

/-- What is left of the text at a place. The brackets in `around` stay open around what is read. -/
def At (around : List Opening) : List Opening × Place → List Char → Prop
  | (l, .inside), t => Held ⟨.code, 0, l ++ around⟩ t
  | (l, .template), t => Held ⟨.template, 0, l ++ around⟩ t
  | (l, .border), t => l ++ around = [] ∧ t = ['\n']
  | _, _ => False

def closingLeads (b : Opening) (l : List Opening) : Leads :=
  if b = .hole then [(l, .template)]
  else if b = .brace ∧ l = [] then [(l, .inside), (l, .border)]
  else [(l, .inside)]

/-- Where a mark leads, character by character. Only at its end can it close a brace. -/
def markLeads : List Opening → List Char → Option Leads
  | l, [] => some [(l, .inside)]
  | l, c :: m =>
    if isInline c then markLeads l m
    else match openedBy c with
      | some b => markLeads (b :: l) m
      | none =>
        match l with
        | [] => none
        | b :: l =>
          if b.closer ≠ c then none
          else if m = [] then some (closingLeads b l)
          else if c = '\x7d' then none
          else markLeads l m

/-- Where reading the token inside a text leads, if that is known. -/
def Token.leads (k : Token) (l : List Opening) : Option Leads :=
  match k with
  | .symbol ('/' :: m) _ => markLeads l m
  | .symbol ['\x60'] _ => some [(l, .template)]
  | .symbol m _ => markLeads l m
  | .templateText | .escape | .interpreter => none
  | _ => some [(l, .inside)]

def Token.leadsGlued (k : Token) (l : List Opening) : Option Leads :=
  match k with
  | .symbol ['\x60'] _ => some [(l, .inside)]
  | .symbol ['$', '\x7b'] _ => some [(.hole :: l, .inside)]
  | .templateText | .escape => some [(l, .template)]
  | _ => none

theorem closingLeads_at {around l : List Opening} {b : Opening} {t : List Char}
    (h : Held ⟨.code, 0, b :: (l ++ around)⟩ (b.closer :: t)) :
    ∃ x ∈ closingLeads b l, At around x t := by
  unfold closingLeads
  rcases h.closer with ⟨rfl, closed, rfl⟩ | further
  · obtain rfl := (List.append_eq_nil_iff.1 closed).1
    exact ⟨([], .border), by simp, closed, rfl⟩
  · by_cases hole : b = .hole
    · rw [if_pos hole] at further ⊢
      exact ⟨_, List.mem_singleton_self _, further⟩
    · rw [if_neg hole] at further ⊢
      refine ⟨(l, .inside), ?_, further⟩
      split
      · exact List.mem_cons_self
      · exact List.mem_singleton_self _

theorem markLeads_at {around l : List Opening} {m t : List Char} {outs : Leads}
    (leads : markLeads l m = some outs) (h : Held ⟨.code, 0, l ++ around⟩ (m ++ t)) :
    ∃ x ∈ outs, At around x t := by
  induction m generalizing l with
  | nil =>
    obtain rfl := Option.some.inj leads
    exact ⟨_, List.mem_singleton_self _, h⟩
  | cons c m ih =>
    rw [List.cons_append] at h
    rw [markLeads.eq_def] at leads
    simp only at leads
    by_cases inline : isInline c = true
    · rw [if_pos inline] at leads
      exact ih leads (h.plain (isPlain_of_isInline inline))
    · rw [if_neg inline] at leads
      cases opener : openedBy c with
      | some b =>
        rw [opener] at leads
        exact ih leads (h.opener opener)
      | none =>
        rw [opener] at leads
        cases l with
        | nil => cases leads
        | cons b l =>
          simp only at leads
          by_cases closing : b.closer = c
          · subst closing
            rw [if_neg (not_not_intro rfl)] at leads
            by_cases last : m = []
            · subst last
              obtain rfl := Option.some.inj leads
              exact closingLeads_at h
            · rw [if_neg last] at leads
              by_cases brace : b.closer = '\x7d'
              · rw [if_pos brace] at leads
                cases leads
              · rw [if_neg brace] at leads
                have no_hole : b ≠ .hole := by
                  rintro rfl
                  exact brace rfl
                rcases h.closer with ⟨rfl, _⟩ | further
                · exact absurd rfl brace
                · rw [if_neg no_hole] at further
                  exact ih leads further
          · rw [if_pos closing] at leads
            cases leads

theorem not_mem_of_markLeads {l : List Opening} {m : List Char} {outs : Leads}
    (leads : markLeads l m = some outs) : '\n' ∉ m := by
  induction m generalizing l with
  | nil => simp
  | cons c m ih =>
    rw [markLeads.eq_def] at leads
    simp only at leads
    have head : c ≠ '\n' := by
      rintro rfl
      rw [if_neg (by decide), show openedBy '\n' = none from rfl] at leads
      cases l with
      | nil => cases leads
      | cons b l => cases b <;> cases leads
    have tail : '\n' ∉ m := by
      split at leads
      · exact ih leads
      · split at leads
        · exact ih leads
        · split at leads
          · cases leads
          · split at leads
            · cases leads
            · split at leads
              · simp_all
              · split at leads
                · cases leads
                · exact ih leads
    simp [head.symm, tail]

theorem wordLength_eq (kind : Kind) (word t : List Char) :
    (Token.word kind word).length? t =
      if nameLength? t = some word.length ∧ t.take word.length = word then some word.length
      else none := by
  rw [Token.length?]
  cases found : after? word t with
  | none =>
    have misfit : ¬ (nameLength? t = some word.length ∧ t.take word.length = word) := by
      rintro ⟨_, same⟩
      have parts := List.take_append_drop word.length t
      rw [same] at parts
      simp [after?_eq_some_iff.2 parts.symm] at found
    rw [if_neg misfit]
  | some u =>
    obtain rfl := after?_eq_some_iff.1 found
    simp

def opensBranch : List Char → Bool
  | ':' :: _ | ')' :: _ | ',' :: _ => false
  | '.' :: c :: _ => c.isDigit
  | ['.'] => false
  | _ => true

theorem opensBranch_append {t : List Char} (w : List Char) (nonempty : t ≠ [])
    (ends : t.getLast? = some '\n') : opensBranch (t ++ w) = opensBranch t := by
  rcases t with _ | ⟨c, _ | ⟨d, t⟩⟩
  · exact absurd rfl nonempty
  · obtain rfl : c = '\n' := by simpa using ends
    rfl
  · rw [List.cons_append, List.cons_append, opensBranch.eq_def, opensBranch.eq_def]
    split <;> simp_all

theorem goesOnAfterCondition_append {t : List Char} {o : List Opening} (w : List Char)
    (h : Held ⟨.code, 0, o⟩ t) : goesOnAfterCondition (t ++ w) = goesOnAfterCondition t := by
  obtain ⟨nonempty, beyond⟩ := dropWhile_isSpace_append w h
  have ends : (t.dropWhile isSpace).getLast? = some '\n' := by
    obtain ⟨a, parts⟩ := List.dropWhile_suffix isSpace (l := t)
    have whole := h.ends
    rw [← parts, List.getLast?_append] at whole
    cases last : (t.dropWhile isSpace).getLast? with
    | none => exact absurd (List.getLast?_eq_none_iff.1 last) nonempty
    | some x => rwa [last, Option.some_or] at whole
  have branch := opensBranch_append w nonempty ends
  rw [← beyond] at branch
  cases t with
  | nil => exact absurd rfl h.ne_nil
  | cons c t =>
    by_cases chain : c = '?' ∨ c = '.'
    · rcases chain with rfl | rfl
      · rfl
      · rfl
    · have other (u : List Char) :
          goesOnAfterCondition (c :: u) = opensBranch ((c :: u).dropWhile isSpace) := by
        rw [goesOnAfterCondition.eq_def]
        split
        · simp_all
        · simp_all
        · rfl
      rw [List.cons_append] at branch ⊢
      rw [other, other, branch]

/-- What a token's length comes to in a text in which more follows. -/
def Leading (around : List Opening) (outs : Leads) (r : List Char) (found found' : Option Nat) : Prop :=
  found' = found ∧ ∀ n, found = some n → n ≤ r.length ∧ ∃ x ∈ outs, At around x (r.drop n)

theorem Leading.misfit {around : List Opening} {outs : Leads} {r : List Char} :
    Leading around outs r none none := by
  refine ⟨rfl, ?_⟩
  intro n e
  cases e

theorem Past.inside {around l : List Opening} {n : Nat} {r : List Char} (h : Past .code (l ++ around) n r) :
    n ≤ r.length ∧ ∃ x ∈ [(l, Place.inside)], At around x (r.drop n) :=
  ⟨h.bound, _, List.mem_singleton_self _, h.held⟩

theorem symbolLength_append {around : List Opening} {outs : Leads} {m stops r : List Char}
    (w : List Char) (no_break : '\n' ∉ m) (ends : r.getLast? = some '\n')
    (leads : ∀ u, r = m ++ u → ∃ x ∈ outs, At around x u) :
    Leading around outs r ((Token.symbol m stops).length? r)
      ((Token.symbol m stops).length? (r ++ w)) := by
  rw [Token.length?, Token.length?, after?_append w no_break ends]
  cases found : after? m r with
  | none => exact .misfit
  | some u =>
    have ends_u := getLast?_after found no_break ends
    obtain rfl := after?_eq_some_iff.1 found
    cases u with
    | nil => cases ends_u
    | cons c u =>
      refine ⟨rfl, ?_⟩
      intro n e
      simp only at e
      split at e
      · cases e
      · obtain rfl := Option.some.inj e
        refine ⟨by simp, ?_⟩
        rw [List.drop_left]
        exact leads _ rfl

theorem symbol_leads {m stops : List Char} {l : List Opening} {outs : Leads}
    (leads : (Token.symbol m stops).leads l = some outs) :
    (∃ m', m = '/' :: m' ∧ markLeads l m' = some outs) ∨ (m = ['\x60'] ∧ outs = [(l, .template)]) ∨
      markLeads l m = some outs := by
  rw [Token.leads.eq_def] at leads
  split at leads
  · rename_i m' _ same
    injection same with same
    exact Or.inl ⟨m', same, leads⟩
  · rename_i same
    injection same with same
    exact Or.inr (Or.inl ⟨same, (Option.some.inj leads).symm⟩)
  · rename_i same
    injection same with same
    exact Or.inr (Or.inr (same ▸ leads))
  all_goals simp_all

section Inside

variable {around l : List Opening} {outs : Leads} {c : Char} {r t : List Char} (w : List Char)

theorem wordLength_append {kind : Kind} {word : List Char} (code : Held ⟨.code, 0, l ++ around⟩ r) :
    Leading around [(l, .inside)] r ((Token.word kind word).length? r)
      ((Token.word kind word).length? (r ++ w)) := by
  obtain ⟨same_name, name_past⟩ := nameLength?_append w code
  rw [wordLength_eq, wordLength_eq, same_name]
  by_cases whole : nameLength? r = some word.length
  · have past := name_past _ whole
    rw [List.take_append_of_le_length past.bound]
    refine ⟨rfl, ?_⟩
    intro n e
    split at e
    · exact Option.some.inj e ▸ past.inside
    · cases e
  · simp only [whole, false_and, if_false]
    exact .misfit

theorem symbolLength_inside {m stops : List Char} (leads : (Token.symbol m stops).leads l = some outs)
    (code : Held ⟨.code, 0, l ++ around⟩ r)
    (no_comment : ∀ u, r = '/' :: u → u.head? ≠ some '/' ∧ u.head? ≠ some '*') :
    Leading around outs r ((Token.symbol m stops).length? r) ((Token.symbol m stops).length? (r ++ w)) := by
  have ends := code.ends
  rcases symbol_leads leads with ⟨m, rfl, marked⟩ | ⟨rfl, rfl⟩ | marked
  · have no_break : '\n' ∉ '/' :: m := by simpa using not_mem_of_markLeads marked
    refine symbolLength_append w no_break ends ?_
    rintro u rfl
    exact markLeads_at marked (code.slash (no_comment _ rfl))
  · refine symbolLength_append w (by decide) ends ?_
    rintro u rfl
    exact ⟨_, List.mem_singleton_self _,
      code.next (List.mem_singleton_self _) (Or.inr (Or.inr (by decide)))⟩
  · refine symbolLength_append w (not_mem_of_markLeads marked) ends ?_
    rintro u rfl
    exact markLeads_at marked code

theorem nameToken_append {kind : Kind} {except : List (List Char)}
    (code : Held ⟨.code, 0, l ++ around⟩ r) :
    Leading around [(l, .inside)] r ((Token.name kind except).length? r)
      ((Token.name kind except).length? (r ++ w)) := by
  obtain ⟨same_name, name_past⟩ := nameLength?_append w code
  rw [Token.length?, Token.length?, same_name]
  cases whole : nameLength? r with
  | none => exact .misfit
  | some n =>
    have past := name_past n whole
    simp only
    rw [List.take_append_of_le_length past.bound]
    refine ⟨rfl, ?_⟩
    intro n' e
    split at e
    · cases e
    · exact Option.some.inj e ▸ past.inside

theorem privateName_append (code : Held ⟨.code, 0, l ++ around⟩ (c :: t)) :
    Leading around [(l, .inside)] (c :: t) (Token.privateName.length? (c :: t))
      (Token.privateName.length? (c :: t ++ w)) := by
  by_cases mark : c = '#'
  · subst mark
    obtain ⟨same, past⟩ := nameLength?_append w (code.plain (by decide))
    rw [List.cons_append, Token.length?, Token.length?, same]
    refine ⟨rfl, ?_⟩
    intro n e
    obtain ⟨n', whole, rfl⟩ := Option.map_eq_some_iff.1 e
    exact ((past n' whole).cons '#').inside
  · have misfit (u : List Char) : Token.privateName.length? (c :: u) = none := by
      rw [Token.length?.eq_def]
      split <;> simp_all
    rw [List.cons_append, misfit, misfit]
    exact .misfit

theorem number_append (code : Held ⟨.code, 0, l ++ around⟩ r) :
    Leading around [(l, .inside)] r (Token.number.length? r) (Token.number.length? (r ++ w)) := by
  have same := inline_numberLength.append _ w code.ends
  have run := inline_numberLength.run r
  generalize longest : max (radixLength r) (decimalLength r) = n at same run
  rw [Token.length?_number, Token.length?_number, numberLength?, numberLength?, same, longest]
  refine ⟨rfl, ?_⟩
  intro n' e
  cases n with
  | zero => cases e
  | succ n => exact Option.some.inj e ▸ (run.past code).inside

theorem string_append (code : Held ⟨.code, 0, l ++ around⟩ (c :: t)) :
    Leading around [(l, .inside)] (c :: t) (Token.string.length? (c :: t))
      (Token.string.length? (c :: t ++ w)) := by
  rw [List.cons_append, Token.length?_string, Token.length?_string, stringLength?, stringLength?]
  split
  · rename_i quoted
    have quote : c = '\'' ∨ c = '"' := by simpa using quoted
    have opened : Held ⟨.quoted c, 0, l ++ around⟩ t ∧ '\\' ≠ c := by
      rcases quote with rfl | rfl
      · exact ⟨code.next (List.mem_singleton_self _) (Or.inr (Or.inr (by decide))), by decide⟩
      · exact ⟨code.next (List.mem_singleton_self _) (Or.inr (Or.inr (by decide))), by decide⟩
    obtain ⟨same, found⟩ := stringRest?_append 1 0 w opened.2 opened.1
    have whole : EndsBefore ⟨.code, 0, l ++ around⟩ 0 (c :: t) (stringRest? c 1 0 t) := found.beyond c
    refine ⟨same, ?_⟩
    intro n e
    obtain ⟨bound, held⟩ := whole.drop e
    exact Past.inside ⟨bound, held⟩
  · exact .misfit

theorem regularExpression_append (code : Held ⟨.code, 0, l ++ around⟩ r)
    (no_comment : ∀ u, r = '/' :: u → u.head? ≠ some '/' ∧ u.head? ≠ some '*') :
    Leading around [(l, .inside)] r (Token.regularExpression.length? r)
      (Token.regularExpression.length? (r ++ w)) := by
  rw [Token.length?, Token.length?, regularExpressionLength?_append w code.ends]
  refine ⟨rfl, ?_⟩
  intro n e
  obtain ⟨u, rfl⟩ : ∃ u, r = '/' :: u := by
    rw [regularExpressionLength?.eq_def] at e
    split at e <;> simp_all
  exact (code.pattern (no_comment u rfl) e).inside

theorem condition_append (code : Held ⟨.code, 0, l ++ around⟩ (c :: t)) :
    Leading around [(l, .inside)] (c :: t) (Token.condition.length? (c :: t))
      (Token.condition.length? (c :: t ++ w)) := by
  by_cases mark : c = '?'
  · subst mark
    have rest := code.plain (by decide)
    rw [List.cons_append, Token.length?, Token.length?, goesOnAfterCondition_append w rest]
    refine ⟨rfl, ?_⟩
    intro n e
    split at e
    · exact Option.some.inj e ▸ ((Past.zero rest).cons '?').inside
    · cases e
  · have misfit (u : List Char) : Token.condition.length? (c :: u) = none := by
      rw [Token.length?.eq_def]
      split <;> simp_all
    rw [List.cons_append, misfit, misfit]
    exact .misfit

end Inside

/-- A token is read inside a text as in the text alone. -/
theorem Token.length?_append {k : Token} {around l : List Opening} {outs : Leads} {r : List Char}
    (w : List Char) (leads : k.leads l = some outs) (stop : Stop (l ++ around) r) :
    Leading around outs r (k.length? r) (k.length? (r ++ w)) := by
  obtain ⟨c, t, rfl, no_space, no_comment⟩ := stop.head
  have code := stop.held
  have divides (u : List Char) (parts : c :: t = '/' :: u) :
      u.head? ≠ some '/' ∧ u.head? ≠ some '*' := by
    obtain ⟨rfl, rfl⟩ := List.cons.inj parts
    exact no_comment rfl
  cases k with
  | symbol m stops => exact symbolLength_inside w leads code divides
  | word kind word =>
    obtain rfl := Option.some.inj leads
    exact wordLength_append w code
  | name kind except =>
    obtain rfl := Option.some.inj leads
    exact nameToken_append w code
  | privateName =>
    obtain rfl := Option.some.inj leads
    exact privateName_append w code
  | number =>
    obtain rfl := Option.some.inj leads
    exact number_append w code
  | string =>
    obtain rfl := Option.some.inj leads
    exact string_append w code
  | regularExpression =>
    obtain rfl := Option.some.inj leads
    exact regularExpression_append w code divides
  | condition =>
    obtain rfl := Option.some.inj leads
    exact condition_append w code
  | templateText => cases leads
  | escape => cases leads
  | interpreter => cases leads

theorem Token.length?_glued_append {k : Token} {around l : List Opening} {outs : Leads}
    {r : List Char} (w : List Char) (leads : k.leadsGlued l = some outs)
    (held : Held ⟨.template, 0, l ++ around⟩ r) :
    Leading around outs r (k.length? r) (k.length? (r ++ w)) := by
  have further {x : Stage} {c : Char} {u : List Char} (parts : r = c :: u)
      (member : x ∈ Stage.next ⟨.template, 0, l ++ around⟩ c u) : Held x u :=
    (parts ▸ held).next member (Or.inr (Or.inl Mode.noConfusion))
  rw [Token.leadsGlued.eq_def] at leads
  split at leads
  · obtain rfl := Option.some.inj leads
    refine symbolLength_append w (by decide) held.ends ?_
    intro u parts
    exact ⟨_, List.mem_singleton_self _, further parts (List.mem_singleton_self _)⟩
  · obtain rfl := Option.some.inj leads
    refine symbolLength_append w (by decide) held.ends ?_
    intro u parts
    have dollar : Held ⟨.dollar, 0, l ++ around⟩ ('\x7b' :: u) :=
      further parts (List.mem_singleton_self _)
    exact ⟨_, List.mem_singleton_self _,
      dollar.next (List.mem_singleton_self _) (Or.inr (Or.inl Mode.noConfusion))⟩
  · obtain rfl := Option.some.inj leads
    obtain ⟨same, past⟩ := templateTextLength?_append w held
    refine ⟨same, ?_⟩
    intro n e
    exact ⟨(past n e).bound, _, List.mem_singleton_self _, (past n e).held⟩
  · obtain rfl := Option.some.inj leads
    rcases r with _ | ⟨c, t⟩
    · exact absurd rfl held.ne_nil
    · by_cases escape : c = '\\'
      · subst escape
        have ends : t.getLast? = some '\n' := by
          cases t with
          | nil => exact absurd held.ends (by decide)
          | cons d t => simpa using held.ends
        have length (u : List Char) : Token.escape.length? ('\\' :: u) =
            if escapedLength u = 0 then none else some (escapedLength u + 1) := by
          rw [Token.length?]
          cases escapedLength u with
          | zero => rfl
          | succ n => rfl
        rw [List.cons_append, length, length, escapedLength_append w ends]
        refine ⟨rfl, ?_⟩
        intro n e
        split at e
        · cases e
        · rename_i some_taken
          obtain rfl := Option.some.inj e
          obtain ⟨bound, rest⟩ := (further rfl (x := ⟨.template, escapedLength t, l ++ around⟩)
            (by simp [Stage.next, Stage.afterEscape, some_taken])).known
          exact ⟨Nat.succ_le_succ bound, _, List.mem_singleton_self _, rest⟩
      · have misfit (u : List Char) : Token.escape.length? (c :: u) = none := by
          rw [Token.length?.eq_def]
          split <;> simp_all
        rw [List.cons_append, misfit, misfit]
        exact .misfit
  · cases leads

def apart : List Char → List Char → Bool
  | a :: u, b :: v => a != b || apart u v
  | _, _ => false

theorem after?_of_apart {u v : List Char} (t : List Char) (h : apart u v = true) :
    after? u (v ++ t) = none := by
  induction u generalizing v with
  | nil => cases v <;> cases h
  | cons a u ih =>
    cases v with
    | nil => cases h
    | cons b v =>
      rw [apart, Bool.or_eq_true] at h
      rw [List.cons_append, after?]
      split
      · rename_i same
        exact ih (h.resolve_left (by simp [same]))
      · rfl

def Token.refused (last : Bool) : Token → Bool
  | .word _ w | .symbol w _ => w != [] && (last || apart w "export".toList)
  | .name _ _ | .templateText => last
  | _ => true

theorem Token.length?_beyond {k : Token} {last : Bool} {t : List Char}
    (refused : k.refused last = true) (beyond : Beyond last t) : k.length? t = none := by
  have no_word {word : List Char} (h : (word != [] && (last || apart word "export".toList)) = true) :
      after? word t = none := by
    simp only [Bool.and_eq_true, bne_iff_ne, Bool.or_eq_true] at h
    rcases beyond with rfl | ⟨rfl, u, rfl⟩
    · cases word with
      | nil => exact absurd rfl h.1
      | cons c word => rfl
    · exact after?_of_apart u (by simpa using h.2)
  cases k with
  | word kind word => rw [Token.length?, no_word refused]
  | symbol mark stops => rw [Token.length?, no_word refused]
  | name kind except =>
    rcases beyond with rfl | ⟨rfl, _⟩
    · rfl
    · cases refused
  | templateText =>
    rcases beyond with rfl | ⟨rfl, _⟩
    · rfl
    · cases refused
  | privateName => rcases beyond with rfl | ⟨_, u, rfl⟩ <;> rfl
  | number =>
    rcases beyond with rfl | ⟨_, u, rfl⟩
    · rfl
    · change numberLength? ('e' :: ("xport".toList ++ u)) = none
      rw [numberLength?, radixLength_of_ne _ (by decide), decimalLength_eq,
        digitsLength_of_not _ (by decide)]
      rfl
  | string => rcases beyond with rfl | ⟨_, u, rfl⟩ <;> rfl
  | regularExpression => rcases beyond with rfl | ⟨_, u, rfl⟩ <;> rfl
  | escape => rcases beyond with rfl | ⟨_, u, rfl⟩ <;> rfl
  | condition => rcases beyond with rfl | ⟨_, u, rfl⟩ <;> rfl
  | interpreter => rcases beyond with rfl | ⟨_, u, rfl⟩ <;> rfl

end SourceSpecs.Syntax
