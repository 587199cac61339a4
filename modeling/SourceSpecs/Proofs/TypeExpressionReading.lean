import SourceSpecs.Proofs.ParameterReading
/-!
A type is read back from its text, parentheses, tuples and functions included. What follows it tells
parentheses around a type from those around the parameters of a function.
-/
namespace SourceSpecs.Syntax

open Grammar

/-- One of the given texts comes next. At most one space comes first. -/
def FollowedBy (ms : List (List Char)) (v : List Char) : Prop :=
  ∃ m ∈ ms, ∃ t, v = m ++ t ∨ v = ' ' :: (m ++ t)

def typeTails : List (List Char) := [[','], [')'], ['>'], [';'], [']'], ['\x7d'], ['=', ' ']]

def operandTails : List (List Char) := ['[', ']'] :: ['|', ' '] :: ['&', ' '] :: typeTails

section Tails

variable {ms ns : List (List Char)} {cs v : List Char} {e : Ending} {p : Nat}

theorem FollowedBy.mono (sub : ∀ m ∈ ms, m ∈ ns) (h : FollowedBy ms v) : FollowedBy ns v := by
  obtain ⟨m, member, further⟩ := h
  exact ⟨m, sub m member, further⟩

theorem mem_head_of_any {m : List Char} (known : m.head?.any cs.contains = true) : ∃ x ∈ m.head?, x ∈ cs := by
  obtain ⟨x, first, listed⟩ := (Option.any_eq_true _ _).1 known
  exact ⟨x, first, List.contains_iff_mem.1 listed⟩

theorem FollowedBy.follows (heads : ∀ m ∈ ms, m.head?.any cs.contains = true) (h : FollowedBy ms v) :
    Follows cs v := by
  obtain ⟨m, member, t, shape⟩ := h
  obtain ⟨x, first, listed⟩ := mem_head_of_any (heads m member)
  obtain ⟨u, rfl⟩ := List.head?_eq_some_iff.1 first
  exact ⟨x, listed, u ++ t, shape⟩

theorem operandEnds_tails : OperandEnds (FollowedBy operandTails) where
  follows h := h.follows (by decide)
  brackets v := ⟨['[', ']'], by decide, v, Or.inl rfl⟩
  operator x known v :=
    have listed : ∀ x ∈ ['|', '&'], [x, ' '] ∈ operandTails := by decide
    ⟨[x, ' '], listed x known, v, Or.inr rfl⟩

theorem typeEnds_tails : TypeEnds (FollowedBy typeTails) where
  follows h := h.follows (by decide)
  mark x known v :=
    have listed : ∀ x ∈ closingMarks, [x] ∈ typeTails := by decide
    ⟨[x], listed x known, v, Or.inl rfl⟩
  brace v := ⟨['\x7d'], by decide, v, Or.inr rfl⟩

theorem operandTails_of_typeTails (h : FollowedBy typeTails v) : FollowedBy operandTails v :=
  h.mono (by decide)

theorem FollowedBy.no_arrow (h : FollowedBy operandTails v) : (sym "=>").reads? e ⟨p, v⟩ = none := by
  have checked : ∀ m ∈ operandTails, m.head?.any openMarks.contains = true ∧
      (sym "=>").misfits [.mark m] = true := by decide
  obtain ⟨m, member, t, shape⟩ := h
  obtain ⟨opens, misfits⟩ := checked m member
  have shows : (Lead.mark m).Shows m t := .mark (mem_head_of_any opens)
  apply reads?_of_misfits _ misfits
  rcases shape with rfl | rfl
  · exact shows.meets _
  · exact (shows.meets _).space

end Tails

section Leads

variable {v : List Char}

theorem NumberLiteral.shown (n : NumberLiteral) (o : Nat) (v : List Char) :
    Before ⟨o, n.chars ++ v⟩ o (n.chars ++ v) := by
  obtain ⟨x, u, chars, digit | ⟨rfl, _⟩⟩ := n.begins
  · rw [chars]
    apply before_of_part
    rw [isIdentifierPart, digit, Bool.or_true]
  · rw [chars]
    exact .here (by decide) (by decide)

theorem NumberLiteral.leads (n : NumberLiteral) (ends : EndsWord v) (no_point : v.head? ≠ some '.') :
    ∃ ls ∈ numberLeads, ∀ o, Meets ls ⟨o, n.chars ++ v⟩ := by
  obtain ⟨x, u, chars, digit | ⟨rfl, pointed⟩⟩ := n.begins
  · have starts : n.chars.head?.any Char.isDigit = true := by
      rw [chars]
      exact digit
    have shows : Lead.number.Shows n.chars v := .number n starts ends no_point
    exact ⟨_, List.mem_cons_self, fun o => shows.meets o⟩
  · cases u with
    | nil => cases pointed
    | cons d u =>
      have shows : (Lead.mark ['.', d]).Shows ['.', d] (u ++ v) := .mark ⟨'.', rfl, by decide⟩
      refine ⟨[.mark ['.', d]], List.mem_cons_of_mem _ (List.mem_map.2 ⟨d, mem_digits pointed, rfl⟩), ?_⟩
      intro o
      rw [chars]
      exact shows.meets _

theorem Follows.endsNumber (follows : Follows operandEnds v) : EndsWord v ∧ v.head? ≠ some '.' := by
  refine ⟨follows.endsWord operandEnds_known, ?_⟩
  have checked : ∀ x ∈ operandEnds, x ≠ '.' := by decide
  obtain ⟨x, listed, t, rfl | rfl⟩ := follows
  · simpa using checked x listed
  · simp

theorem LiteralText.leads (l : LiteralText) (follows : Follows operandEnds v) :
    ∃ ls ∈ typeLeads, ∀ o, Meets ls ⟨o, l.chars ++ v⟩ := by
  cases l with
  | word w known => exact leads_word (List.mem_append_right _ known) follows
  | string s =>
    have shows : Lead.string.Shows s.chars v := .string s v
    exact ⟨_, List.mem_cons_self, fun o => shows.meets o⟩
  | number sign known n =>
    simp only [List.mem_cons, List.not_mem_nil, or_false] at known
    rcases known with rfl | rfl | rfl
    · obtain ⟨ends, no_point⟩ := follows.endsNumber
      obtain ⟨ls, listed, meets⟩ := n.leads ends no_point
      have sub : ∀ ls ∈ numberLeads, ls ∈ typeLeads := by decide
      exact ⟨ls, sub ls listed, meets⟩
    · exact leads_mark (by decide) _
    · exact leads_mark (by decide) _

/-- What an operand begins with, whatever may follow it. -/
theorem TypeOperand.leads : (T : TypeOperand) → ∀ v, Follows operandEnds v →
    ∃ ls ∈ typeLeads, ∀ o, Meets ls ⟨o, T.chars ++ v⟩
  | .predefined w known, v, follows => leads_word (List.mem_append_left _ known) follows
  | .uniqueSymbol, v, follows => by
    have unique : IsWhole "unique".toList := isWhole_of_letters (by decide) (by decide)
    have symbol : IsWhole "symbol".toList := isWhole_of_letters (by decide) (by decide)
    have shows : (Lead.word "symbol".toList).Shows "symbol".toList v :=
      .word symbol (follows.endsWord operandEnds_known)
    refine ⟨_, List.mem_cons_of_mem _ List.mem_cons_self, ?_⟩
    intro o
    exact .cons (unique.shown o (' ' :: ("symbol".toList ++ v))) (.word unique endsWord_space)
      (shows.meets _).space
  | .literal l, v, follows => by
    rw [chars]
    exact l.leads follows
  | .named first path arguments, v, follows => by
    rw [chars, List.append_assoc]
    apply leads_named
    rw [argumentChars]
    split
    · exact follows.mono (by decide)
    · exact ⟨'<', by decide, _, Or.inl rfl⟩
  | .array element, v, follows => by
    rw [chars, List.append_assoc]
    exact element.leads _ ⟨'[', by decide, _, Or.inl rfl⟩
  | .tuple elements, v, follows => leads_mark (by decide) _
  | .object properties commas closed, v, follows => by
    rw [chars, bracedChars]
    split <;> exact leads_mark (by decide) _
  | .parenthesized inner, v, follows => leads_mark (by decide) _

theorem follows_further (further : List (Connective × TypeOperand)) (follows : Follows typeEnds v) :
    Follows operandEnds (charsOfFurther further ++ v) := by
  cases further with
  | nil => exact follows.mono (by decide)
  | cons T further =>
    obtain ⟨c, T⟩ := T
    cases c with
    | union => exact ⟨'|', by decide, _, Or.inr rfl⟩
    | intersection => exact ⟨'&', by decide, _, Or.inr rfl⟩

theorem TypeExpr.leads (T : TypeExpr) (follows : Follows typeEnds v) :
    ∃ ls ∈ typeLeads, ∀ o, Meets ls ⟨o, T.chars ++ v⟩ := by
  cases T with
  | joined first further =>
    rw [chars, List.append_assoc]
    exact first.leads _ (follows_further further follows)
  | function parameters result => exact leads_mark (by decide) _

theorem LiteralText.shown (l : LiteralText) (o : Nat) (v : List Char) :
    Before ⟨o, l.chars ++ v⟩ o (l.chars ++ v) := by
  cases l with
  | word w known => exact (isWhole_wordType (List.mem_append_right _ known)).shown o v
  | string s => exact (Lead.Shows.string s v).before
  | number sign known n =>
    simp only [List.mem_cons, List.not_mem_nil, or_false] at known
    rcases known with rfl | rfl | rfl
    · exact n.shown o v
    · exact .here (by decide) (by decide)
    · exact .here (by decide) (by decide)

theorem TypeOperand.shown : (T : TypeOperand) → ∀ o v, Before ⟨o, T.chars ++ v⟩ o (T.chars ++ v)
  | .predefined w known, o, v => (isWhole_wordType (List.mem_append_left _ known)).shown o v
  | .uniqueSymbol, o, v => .here (by decide) (by decide)
  | .literal l, o, v => by
    rw [chars]
    exact l.shown o v
  | .named first path arguments, o, v => by
    rw [chars, dottedChars, List.append_assoc, List.append_assoc]
    exact first.whole.shown o _
  | .array element, o, v => by
    rw [chars, List.append_assoc]
    exact element.shown o _
  | .tuple elements, o, v => .here (by decide) (by decide)
  | .object properties commas closed, o, v => by
    rw [chars, bracedChars]
    split <;> exact .here (by decide) (by decide)
  | .parenthesized inner, o, v => .here (by decide) (by decide)

theorem TypeExpr.shown (T : TypeExpr) (o : Nat) (v : List Char) :
    Before ⟨o, T.chars ++ v⟩ o (T.chars ++ v) := by
  cases T with
  | joined first further =>
    rw [chars, List.append_assoc]
    exact first.shown o _
  | function parameters result => exact .here (by decide) (by decide)

end Leads

section Operands

variable {S w v : List Char} {ns : List String} {e : Ending} {c d : Cursor} {o p : Nat}
  {ends : List Char → Prop}

theorem ReadsAsType.alone (read : ∀ e c o p v, p = o + w.length → S.drop o = w ++ v → Before c o (w ++ v) →
    ends v → ∃ nodes, typeOperand.reads? e c = some (nodes, ⟨p, v⟩) ∧
      nodes.flatMap (Tree.names S false) = ns) : ReadsAsType ends S w ns := by
  intro e c o p v stop on before ended
  obtain ⟨nodes, operand, names⟩ := read e c o p v stop on before ended
  exact ⟨nodes, _, [], operand, .done _, by rw [List.append_nil, names]⟩

theorem ReadsAsType.uniqueSymbol (ending : OperandEnds ends) : ReadsAsType ends S uniqueChars [] := by
  apply ReadsAsType.alone
  intro e c o p v stop on before ended
  have symbol_ends := (ending.follows ended).endsWord operandEnds_known
  change Before c o ("unique".toList ++ ' ' :: ("symbol".toList ++ v)) at before
  change p = o + 7 + "symbol".toList.length at stop
  have unique : IsWhole "unique".toList := isWhole_of_letters (by decide) (by decide)
  have symbol : IsWhole "symbol".toList := isWhole_of_letters (by decide) (by decide)
  have behind : Before ⟨o + "unique".toList.length, ' ' :: ("symbol".toList ++ v)⟩ (o + 7)
      ("symbol".toList ++ v) := (symbol.shown _ _).space
  have leads : Meets [.word "unique".toList, .word "symbol".toList] c :=
    .cons before (.word unique endsWord_space) (.cons behind (.word symbol symbol_ends) (.nil _))
  have words : predefinedType.reads? e c = _ :=
    (reads_right (reads?_of_misfits leads (by decide))).trans
      (reads_seq (reads_word before unique endsWord_space) (reads_word behind symbol symbol_ends))
  obtain rfl := stop
  refine ⟨_, reads_operand (i := 8) rfl leads (by decide) (by decide) words, ?_⟩
  simp

def signedLeads : List (List Lead) := [.mark ['-']] :: [.mark ['+']] :: numberLeads

theorem reads_signed {sign : List Char} (known : sign ∈ [[], ['-'], ['+']]) (n : NumberLiteral)
    (stop : p = o + (sign ++ n.chars).length) (before : Before c o (sign ++ n.chars ++ v))
    (ends : EndsWord v) (no_point : v.head? ≠ some '.') :
    (∃ ls ∈ signedLeads, Meets ls c) ∧ ∃ nodes,
      (Form.opt (sym "-" <|> sym "+") ++ token .number : F).reads? e c = some (nodes, ⟨p, v⟩) ∧
        nodes.flatMap (Tree.names S false) = [] := by
  simp only [List.mem_cons, List.not_mem_nil, or_false] at known
  rcases known with rfl | rfl | rfl
  · obtain ⟨ls, listed, meets⟩ := n.leads ends no_point
    have unsigned : ∀ ls ∈ numberLeads, (Form.opt (sym "-" <|> sym "+")).idles ls = true := by decide
    have leads := before.meets (meets o)
    obtain rfl := stop
    refine ⟨⟨ls, List.mem_cons_of_mem _ (List.mem_cons_of_mem _ listed), leads⟩, _,
      (reads_behind (reads?_of_idles leads (unsigned ls listed))).trans (reads_number n before ends no_point), ?_⟩
    simp [names_leaf (k := .number) false rfl]
  all_goals
    obtain rfl : p = o + 1 + n.chars.length := by
      rw [stop, List.length_append, List.length_singleton, Nat.add_assoc]
    have number := reads_number (e := e) n (n.shown (o + 1) v) ends no_point
  · have leads : Meets [.mark ['-']] c := before.meets (meets_mark (by decide) _ _)
    have minus : (sym "-").reads? e c = _ := reads_mark (u := ['-']) before (by simp)
    refine ⟨⟨_, List.mem_cons_self, leads⟩, _, reads_seq (reads_opt (reads_left minus)) number, ?_⟩
    simp [names_leaf (k := .number) false rfl]
  · have leads : Meets [.mark ['+']] c := before.meets (meets_mark (by decide) _ _)
    have plus : (sym "+").reads? e c = _ := reads_mark (u := ['+']) before (by simp)
    have no_minus := reads?_of_misfits (f := sym "-") (e := e) leads (by decide)
    refine ⟨⟨_, List.mem_cons_of_mem _ List.mem_cons_self, leads⟩, _,
      reads_seq (reads_opt ((reads_right no_minus).trans plus)) number, ?_⟩
    simp [names_leaf (k := .number) false rfl]

theorem ReadsAsType.literal (ending : OperandEnds ends) (l : LiteralText) :
    ReadsAsType ends S l.chars [] := by
  cases l with
  | word w known => exact .word ending (List.mem_append_right _ known)
  | string s =>
    apply ReadsAsType.alone
    intro e c o p v stop on before ended
    have leads : Meets [.string] c := .cons before (.string s v) (.nil _)
    obtain rfl := stop
    refine ⟨_, reads_operand (i := 9) rfl leads (by decide) (by decide) (reads_left (reads_string s before)), ?_⟩
    simp [names_leaf (k := .string) false rfl]
  | number sign known n =>
    apply ReadsAsType.alone
    intro e c o p v stop on before ended
    obtain ⟨ends, no_point⟩ := (ending.follows ended).endsNumber
    obtain ⟨⟨ls, listed, leads⟩, nodes, number, names⟩ :=
      reads_signed (S := S) (e := e) known n stop before ends no_point
    have checked : ∀ ls ∈ signedLeads, (Form.many (bar <|> ampersand) : F).idles ls = true ∧
        (operandForms.take 9).all (·.misfits ls) = true ∧ (token .string : F).misfits ls = true := by
      decide +kernel
    obtain ⟨unmarked, earlier, no_string⟩ := checked ls listed
    have literal : literalType.reads? e c = _ :=
      (reads_right (reads?_of_misfits leads no_string)).trans (reads_left number)
    exact ⟨nodes, reads_operand (i := 9) rfl leads unmarked earlier literal, names⟩

theorem reads_tupleElement (T : TypeExpr) (type : ReadsType (FollowedBy typeTails) S T.chars T.names) :
    ReadsNode S tupleElement e (FollowedBy typeTails) (fun t => Tree.names S false t = T.names) T.chars := by
  intro c o p v stop on before ended
  have follows := typeEnds_tails.follows ended
  obtain ⟨t, read, _, names⟩ := type e c o p v stop on before ended
  obtain ⟨ls, listed, meets⟩ := T.leads follows
  have leads := before.meets (meets o)
  have checked : ∀ ls ∈ typeLeads,
      ((Form.node .restPattern (sym "..." ++ rule .pattern) <|> anyName .identifier) ++ Form.opt (sym "?") ++
        rule .typing : F).misfits ls = true ∧ (sym "..." ++ rule .type).misfits ls = true := by decide +kernel
  obtain ⟨unnamed, no_rest⟩ := checked ls listed
  have no_mark : (sym "?").reads? e ⟨p, v⟩ = none := follows.misfit typeEnds_known (by decide)
  exact ⟨t, (reads_right (reads?_of_misfits leads unnamed)).trans
    ((reads_right (reads?_of_misfits leads no_rest)).trans (reads_seq read (reads_opt_none no_mark))), names⟩

theorem ReadsAsType.tuple {Ts : List TypeExpr}
    (types : ∀ T ∈ Ts, ReadsType (FollowedBy typeTails) S T.chars T.names) :
    ReadsAsType ends S ('[' :: setApart [',', ' '] (Ts.map TypeExpr.chars) ++ [']'])
      (Ts.flatMap TypeExpr.names) := by
  apply ReadsAsType.alone
  intro e c o p v stop on before _
  have text : '[' :: setApart [',', ' '] (Ts.map TypeExpr.chars) ++ [']'] ++ v =
      '[' :: (setApart [',', ' '] (Ts.map TypeExpr.chars) ++ ']' :: v) := by simp
  rw [text] at on before
  obtain ⟨nodes, ts, l, r, list, named, weaves⟩ := reads_list (e := e) (x := '[') (y := ']')
    (fun T member => reads_tupleElement (e := .never) T (types T member)) (fun T _ o v => T.shown o v)
    (typeEnds_tails.mark ',' (by decide)) (typeEnds_tails.mark ']' (by decide)) (by decide) (by decide)
    (by decide) (by decide) (p := p) (by simp [stop]) on before.stays
  have leads : Meets [.mark ['[']] c := before.meets (meets_mark (by decide) _ _)
  refine ⟨_, reads_operand (i := 15) rfl leads (by decide) (by decide) (reads_node before list), ?_⟩
  rw [List.flatMap_singleton, names_listed false rfl named weaves]

theorem ReadsAsType.emptyObject : ReadsAsType ends S ['\x7b', '\x7d'] [] := by
  apply ReadsAsType.alone
  intro e c o p v stop on before _
  obtain rfl := stop
  have closes : Before ⟨o + 1, '\x7d' :: v⟩ (o + 1) (['\x7d'] ++ v) := .here (by decide) (by decide)
  have closing : Meets [.mark ['\x7d']] ⟨o + 1, '\x7d' :: v⟩ :=
    closes.meets (meets_mark (by decide) _ _)
  have braces {c : Cursor} (here : Before c o ('\x7b' :: '\x7d' :: v)) :
      Meets [.mark ['\x7b'], .mark ['\x7d']] c :=
    .cons (w := ['\x7b']) here (.mark ⟨'\x7b', rfl, by decide⟩) closing
  have here := before.stays
  have opening : (sym "\x7b|" <|> sym "\x7b" : F).reads? e _ = _ :=
    (reads_right (reads?_of_misfits (braces here) (by decide))).trans (reads_mark (u := ['\x7b']) here (by simp))
  have closed : (sym "|\x7d" <|> sym "\x7d" : F).reads? e _ = _ :=
    (reads_right (reads?_of_misfits closing (by decide))).trans (reads_mark closes (by simp))
  have memberless := reads?_of_idles (f := typeMembers) (e := e) closing (by decide)
  have object : (rule .objectType : F).reads? e c = _ :=
    reads_rule (reads_node before (reads_seq (reads_seq opening memberless) closed))
  refine ⟨_, reads_operand (i := 14) rfl (braces before) (by decide) (by decide) object, ?_⟩
  rw [List.flatMap_singleton, names_inner _ rfl]
  simp

def propertyChars (q : PropertyHead × TypeExpr) : List Char := q.1.chars ++ [':', ' '] ++ q.2.chars

theorem PropertyHead.leads (h : PropertyHead) :
    ∃ l ∈ keyLeads, ∀ v, ∃ w u, h.chars ++ ':' :: v = w ++ u ∧ l.Shows w u := by
  obtain ⟨isReadonly, key, optional⟩ := h
  cases isReadonly with
  | false =>
    obtain ⟨l, listed, shows⟩ := key.leads
    refine ⟨l, listed, ?_⟩
    intro v
    obtain ⟨ends, no_point, _⟩ := keyTails_meets (v := v) optional
    refine ⟨_, _, ?_, shows _ ends no_point⟩
    rw [chars, readonlyChars, if_neg Bool.false_ne_true, List.nil_append, List.append_assoc]
  | true =>
    refine ⟨.word "readonly".toList, by decide +kernel, ?_⟩
    intro v
    have whole : IsWhole "readonly".toList := isWhole_of_letters (by decide) (by decide)
    refine ⟨_, ' ' :: (key.chars ++ ((if optional then ['?'] else []) ++ ':' :: v)), ?_,
      .word whole endsWord_space⟩
    rw [chars, List.append_assoc, List.append_assoc]
    rfl

theorem propertyChars_leads (q : PropertyHead × TypeExpr) :
    ∃ l ∈ keyLeads, ∀ o v, Before ⟨o, propertyChars q ++ v⟩ o (propertyChars q ++ v) ∧
      Meets [l] ⟨o, propertyChars q ++ v⟩ := by
  obtain ⟨l, listed, shows⟩ := q.1.leads
  refine ⟨l, listed, ?_⟩
  intro o v
  obtain ⟨w, u, text, shows⟩ := shows (' ' :: (q.2.chars ++ v))
  have whole : propertyChars q ++ v = w ++ u := by
    rw [propertyChars, List.append_assoc, List.append_assoc]
    exact text
  rw [whole]
  exact ⟨shows.before, shows.meets o⟩

theorem ReadsAsType.properties {qs : List (PropertyHead × TypeExpr)} {x : Char} (known : x ∈ memberMarks)
    (closed : Bool) (types : ∀ q ∈ qs, ReadsType (FollowedBy typeTails) S q.2.chars q.2.names) :
    ReadsAsType ends S (bracedChars x closed (qs.map propertyChars)) (qs.flatMap fun q => q.2.names) := by
  cases qs with
  | nil => exact .emptyObject
  | cons q qs =>
    have members (e : Ending) : ∀ q' ∈ q :: qs, ReadsNode S (.within .declaration typeMember) e
        (FollowedBy typeTails) (fun t => Tree.names S false t = q'.2.names) (propertyChars q') := by
      intro q' member
      exact reads_property q'.1 (types q' member) (fun o v => q'.2.shown o v)
    have shown (q' : PropertyHead × TypeExpr) (o : Nat) (v : List Char) :
        Before ⟨o, propertyChars q' ++ v⟩ o (propertyChars q' ++ v) := by
      obtain ⟨_, _, leads⟩ := propertyChars_leads q'
      exact (leads o v).1
    obtain ⟨l, listed, leads⟩ := propertyChars_leads q
    rw [bracedChars, List.map_cons, List.isEmpty_cons, if_neg Bool.false_ne_true, ← List.map_cons]
    exact .object typeEnds_tails known listed members (fun q' _ => shown q') (fun o v => (leads o v).2) closed

theorem no_functionType {t : List Char} (before : Before c o ('(' :: t))
    (closes : Closes v [.parenthesis] t) (follows : FollowedBy operandTails v) :
    functionType.reads? e c = none := by
  have leads : Meets [.mark ['(']] c := before.meets (meets_mark (by decide) _ _)
  have not_generic := reads?_of_misfits (f := rule .typeParameters) (e := e) leads (by decide)
  -- parameters that are read all the same end where the text closes the parenthesis
  have unread (nodes : List Tree) (d : Cursor) (read : (rule .parameters : F).reads? e c = some (nodes, d)) :
      d.rest = v := by
    rw [reads?_rule] at read
    change (Form.node .parameters (enclosed "(" (Form.opt (commaList parameter)) ")")).reads? e c = _ at read
    rw [reads?_node, before.skipGap] at read
    obtain ⟨⟨inner, d'⟩, enclosed, same⟩ := Option.map_eq_some_iff.1 read
    obtain rfl : d' = d := congrArg Prod.snd same
    exact reads_enclosed_ends (by decide) before.stays closes enclosed
  have idle := reads_behind (g := rule .parameters) (reads_opt_none not_generic)
  apply reads_seq_left_none
  cases read : (rule .parameters : F).reads? e c with
  | none => exact reads_seq_left_none (idle.trans read)
  | some x =>
    obtain ⟨nodes, d⟩ := x
    obtain rfl := unread nodes d read
    exact reads_seq_none (idle.trans read) follows.no_arrow

theorem ReadsAsType.parenthesized {T : TypeExpr}
    (type : ReadsType (FollowedBy typeTails) S T.chars T.names) :
    ReadsAsType (FollowedBy operandTails) S ('(' :: T.chars ++ [')']) T.names := by
  apply ReadsAsType.alone
  intro e c o p v stop on before ended
  have text : '(' :: T.chars ++ [')'] ++ v = '(' :: (T.chars ++ ')' :: v) := by simp
  rw [text] at on before
  have leads : Meets [.mark ['(']] c := before.meets (meets_mark (by decide) _ _)
  obtain ⟨t, read, _, names⟩ := type .never ⟨o + 1, T.chars ++ ')' :: v⟩ (o + 1) _ _ rfl
    (drop_behind (w := ['(']) on) (T.shown _ _) (typeEnds_tails.mark ')' (by decide) v)
  obtain ⟨l, r, whole⟩ := reads_enclosed (p := p) (e := e) (by decide) (by simp [stop]) before read
  have closing : Closes v [.parenthesis] (T.chars ++ ')' :: v) := T.balanced v .parenthesis [] _ (.closer .done)
  have earlier : ∀ f ∈ operandForms.take 16, f.reads? e c = none := by
    have misfits : (operandForms.tail.take 15).all (·.misfits [.mark ['(']]) = true := by decide
    intro f member
    rcases List.mem_cons.1 member with rfl | member
    · exact no_functionType before closing ended
    · exact reads?_of_misfits leads (List.all_eq_true.1 misfits f member)
  have unmarked := reads?_of_idles (f := Form.many (bar <|> ampersand)) (e := e) leads (by decide)
  have chosen : (Form.choice operandForms).reads? e c = _ := reads_choice (i := 16) rfl earlier whole
  have operand : typeOperand.reads? e c = _ := (reads_behind unmarked).trans chosen
  refine ⟨_, operand, ?_⟩
  rw [List.flatMap_append, List.flatMap_append, List.flatMap_singleton, List.flatMap_singleton,
    List.flatMap_singleton, names_leaf _ rfl, names_leaf _ rfl, names, List.append_nil, List.nil_append]

def parameterChars (q : ParameterHead × TypeExpr) : List Char := q.1.chars ++ [':', ' '] ++ q.2.chars

theorem parameterChars_shown (q : ParameterHead × TypeExpr) (o : Nat) (v : List Char) :
    Before ⟨o, parameterChars q ++ v⟩ o (parameterChars q ++ v) := by
  obtain ⟨⟨spread, name, optional⟩, T⟩ := q
  cases spread with
  | false =>
    rw [parameterChars, ParameterHead.chars, if_neg Bool.false_ne_true, List.nil_append, List.append_assoc,
      List.append_assoc, List.append_assoc]
    exact name.whole.shown o _
  | true => exact .here (by decide) (by decide)

theorem reads_typedParameter (q : ParameterHead × TypeExpr)
    (type : ReadsType (FollowedBy typeTails) S q.2.chars q.2.names) :
    ReadsNode S parameter e (Follows parameterEnds) (fun t => Tree.names S false t = q.2.names)
      (parameterChars q) := by
  intro c o p v stop on before follows
  obtain ⟨h, T⟩ := q
  have text : parameterChars (h, T) ++ v = (if h.spread then ['.', '.', '.'] else []) ++ (h.name.chars ++
      ((if h.optional then ['?'] else []) ++ ':' :: ' ' :: (T.chars ++ v))) := by
    simp [parameterChars, ParameterHead.chars]
  rw [text] at on before
  have colon : Follows (':' :: '=' :: parameterEnds) (':' :: ' ' :: (T.chars ++ v)) :=
    ⟨':', by decide, _, Or.inl rfl⟩
  obtain ⟨ends, ls, listed, meets⟩ := parameterTails_meets h.optional colon
  obtain ⟨name, pattern, _, nameless⟩ :=
    reads_pattern (e := e) h.spread h.name listed rfl on before.stays ends (meets _)
  rw [← List.append_assoc] at on
  obtain ⟨mark, optional, _, markless⟩ := reads_optional (S := S) (e := e) h.optional rfl colon
  have closed : FollowedBy typeTails v := by
    have tails : ∀ x ∈ parameterEnds, [x] ∈ typeTails := by decide
    obtain ⟨x, listed, t, shape⟩ := follows
    exact ⟨[x], tails x listed, t, shape⟩
  obtain ⟨cs, typing, names⟩ := reads_typing (e := e) (p := p) type
    (by
      rw [stop]
      simp only [parameterChars, ParameterHead.chars, List.length_append, List.length_cons, List.length_nil]
      omega) (drop_behind (drop_behind on)) (T.shown _ _) closed
  have no_value : initializer.reads? e ⟨p, v⟩ = none := follows.misfit parameterEnds_known (by decide)
  have body := reads_seq (reads_seq (reads_seq pattern optional)
    (reads_opt (reads_field (y := .typing) typing))) (reads_opt_none no_value)
  refine ⟨_, reads_node before body, ?_⟩
  show Tree.names S false _ = T.names
  rw [names_inner _ rfl]
  simp only [List.flatMap_append, List.flatMap_singleton, names_as, nameless, markless, markLast,
    List.nil_append, List.append_nil]
  rw [names_inner _ rfl, names]

theorem ReadsAsType.function {qs : List (ParameterHead × TypeExpr)} {T : TypeExpr}
    (types : ∀ q ∈ qs, ReadsType (FollowedBy typeTails) S q.2.chars q.2.names)
    (result : ReadsType (FollowedBy typeTails) S T.chars T.names) :
    ReadsAsType (FollowedBy typeTails) S ('(' :: setApart [',', ' '] (qs.map parameterChars) ++
      [')', ' ', '=', '>', ' '] ++ T.chars) ((qs.flatMap fun q => q.2.names) ++ T.names) := by
  apply ReadsAsType.alone
  intro e c o p v stop on before ended
  set listed := setApart [',', ' '] (qs.map parameterChars) with listed_eq
  have text : '(' :: listed ++ [')', ' ', '=', '>', ' '] ++ T.chars ++ v =
      '(' :: (listed ++ ')' :: ' ' :: '=' :: '>' :: ' ' :: (T.chars ++ v)) := by simp
  rw [text] at on before
  have leads : Meets [.mark ['(']] c := before.meets (meets_mark (by decide) _ _)
  have not_generic := reads?_of_misfits (f := rule .typeParameters) (e := e) leads (by decide)
  obtain ⟨nodes, ts, l, r, list, named, weaves⟩ := reads_list (e := e) (x := '(') (y := ')')
    (fun q member => reads_typedParameter (e := .never) q (types q member))
    (fun q _ => parameterChars_shown q) (fun v => ⟨',', by decide, v, Or.inl rfl⟩)
    (fun v => ⟨')', by decide, v, Or.inl rfl⟩) (by decide) (by decide) (by decide) (by decide) rfl on
    before.stays
  set q := o + (listed.length + 2) with q_eq
  have arrow : Before ⟨q, ' ' :: '=' :: '>' :: ' ' :: (T.chars ++ v)⟩ (q + 1)
      (['=', '>'] ++ ' ' :: (T.chars ++ v)) := .space (.here (by decide) (by decide))
  have on_result : S.drop (q + 4) = T.chars ++ v := by
    have text : '(' :: (listed ++ ')' :: ' ' :: '=' :: '>' :: ' ' :: (T.chars ++ v)) =
        ('(' :: (listed ++ [')', ' ', '=', '>', ' '])) ++ (T.chars ++ v) := by simp
    rw [text] at on
    have length : ('(' :: (listed ++ [')', ' ', '=', '>', ' '])).length = listed.length + 6 := by simp
    have := drop_behind on
    rwa [length] at this
  have here : Before ⟨q + 3, ' ' :: (T.chars ++ v)⟩ (q + 4) (T.chars ++ v) := (T.shown _ _).space
  obtain ⟨t, read, _, names⟩ := result e _ (q + 4) p v
    (by
      rw [stop, q_eq]
      simp only [List.length_append, List.length_cons, List.length_nil]
      omega) on_result here ended
  obtain ⟨ls, among, meets⟩ := T.leads (typeEnds_tails.follows ended)
  have given := reads_returnType among (here.meets (meets _)) read
  have parameters : (rule .parameters : F).reads? e c = _ := reads_rule (reads_node before list)
  have function : functionType.reads? e c = _ :=
    reads_seq (reads_seq ((reads_behind (reads_opt_none not_generic)).trans parameters)
      (reads_mark (u := ['=', '>']) arrow (by simp))) given
  refine ⟨_, reads_operand (i := 0) rfl leads (by decide) (by decide) function, ?_⟩
  rw [List.flatMap_append, List.flatMap_append, List.flatMap_singleton, List.flatMap_singleton,
    List.flatMap_singleton, names_listed false rfl named weaves, names_leaf _ rfl, names, List.append_nil]

end Operands

section Lists

theorem charsOfTypes_eq (Ts : List TypeExpr) : charsOfTypes Ts = Ts.map TypeExpr.chars := by
  induction Ts with
  | nil => rfl
  | cons T Ts ih => rw [charsOfTypes, ih, List.map_cons]

theorem namesOfTypes_eq (Ts : List TypeExpr) : namesOfTypes Ts = Ts.flatMap TypeExpr.names := by
  induction Ts with
  | nil => rfl
  | cons T Ts ih => rw [namesOfTypes, ih, List.flatMap_cons]

theorem charsOfProperties_eq (qs : List (PropertyHead × TypeExpr)) :
    charsOfProperties qs = qs.map propertyChars := by
  induction qs with
  | nil => rfl
  | cons q qs ih => rw [charsOfProperties, ih, List.map_cons, propertyChars]

theorem namesOfProperties_eq (qs : List (PropertyHead × TypeExpr)) :
    namesOfProperties qs = qs.flatMap fun q => q.2.names := by
  induction qs with
  | nil => rfl
  | cons q qs ih => rw [namesOfProperties, ih, List.flatMap_cons]

theorem charsOfParameters_eq (qs : List (ParameterHead × TypeExpr)) :
    charsOfParameters qs = qs.map parameterChars := by
  induction qs with
  | nil => rfl
  | cons q qs ih => rw [charsOfParameters, ih, List.map_cons, parameterChars]

theorem namesOfParameters_eq (qs : List (ParameterHead × TypeExpr)) :
    namesOfParameters qs = qs.flatMap fun q => q.2.names := by
  induction qs with
  | nil => rfl
  | cons q qs ih => rw [namesOfParameters, ih, List.flatMap_cons]

end Lists

theorem ReadsAsType.connected {S w : List Char} {ns : List String} (c : Connective)
    (left : ReadsAsType (FollowedBy operandTails) S w ns) (T : TypeOperand)
    (right : ReadsAsType (FollowedBy operandTails) S T.chars T.names) :
    ReadsAsType (FollowedBy operandTails) S (w ++ [' ', c.mark, ' '] ++ T.chars) (ns ++ T.names) := by
  cases c with
  | union => exact .union operandEnds_tails left right (fun o v => T.shown o v)
  | intersection => exact .intersection operandEnds_tails left right (fun o v => T.shown o v)

mutual

theorem TypeOperand.reads {S : List Char} : (T : TypeOperand) →
    ReadsAsType (FollowedBy operandTails) S T.chars T.names
  | .predefined w known => .word operandEnds_tails (List.mem_append_left _ known)
  | .uniqueSymbol => .uniqueSymbol operandEnds_tails
  | .literal l => by
    rw [TypeOperand.chars, TypeOperand.names]
    exact .literal operandEnds_tails l
  | .named first path [] => by
    rw [TypeOperand.chars, TypeOperand.names, charsOfTypes, argumentChars, List.isEmpty_nil, if_pos rfl,
      List.append_nil]
    exact .name operandEnds_tails first path
  | .named first path (T :: Ts) => by
    rw [TypeOperand.chars, TypeOperand.names, charsOfTypes_eq, argumentChars, List.map_cons,
      List.isEmpty_cons, if_neg Bool.false_ne_true, ← List.append_assoc]
    exact .applied first path typeEnds_tails (reads_types (T :: Ts)) (fun U _ o v => U.shown o v)
  | .array element => by
    rw [TypeOperand.chars, TypeOperand.names]
    exact (TypeOperand.reads element).array operandEnds_tails
  | .tuple elements => by
    rw [TypeOperand.chars, TypeOperand.names, charsOfTypes_eq, namesOfTypes_eq]
    exact .tuple (reads_types elements)
  | .object qs commas closed => by
    rw [TypeOperand.chars, TypeOperand.names, charsOfProperties_eq, namesOfProperties_eq]
    apply ReadsAsType.properties _ closed (reads_propertyTypes qs)
    cases commas <;> decide
  | .parenthesized inner => by
    rw [TypeOperand.chars, TypeOperand.names]
    exact .parenthesized (TypeExpr.reads inner)

/-- A type is read back from its text, and its nodes refer to its names. -/
theorem TypeExpr.reads {S : List Char} : (T : TypeExpr) →
    ReadsType (FollowedBy typeTails) S T.chars T.names
  | .joined first further => by
    rw [TypeExpr.chars, TypeExpr.names]
    exact (reads_further further (TypeOperand.reads first)).type (fun _ => operandTails_of_typeTails)
      typeEnds_tails
  | .function qs result => by
    rw [TypeExpr.chars, TypeExpr.names, charsOfParameters_eq, namesOfParameters_eq]
    exact (ReadsAsType.function (reads_parameterTypes qs) (TypeExpr.reads result)).type
      (fun _ ended => ended) typeEnds_tails

theorem reads_further {S w : List Char} {ns : List String} : (Ts : List (Connective × TypeOperand)) →
    ReadsAsType (FollowedBy operandTails) S w ns →
      ReadsAsType (FollowedBy operandTails) S (w ++ charsOfFurther Ts) (ns ++ namesOfFurther Ts)
  | [], left => by
    rw [charsOfFurther, namesOfFurther, List.append_nil, List.append_nil]
    exact left
  | (c, T) :: Ts, left => by
    rw [charsOfFurther, namesOfFurther, ← List.append_assoc, ← List.append_assoc, ← List.append_assoc]
    exact reads_further Ts (left.connected c T (TypeOperand.reads T))

theorem reads_types {S : List Char} : (Ts : List TypeExpr) →
    ∀ T ∈ Ts, ReadsType (FollowedBy typeTails) S T.chars T.names
  | [] => by simp
  | T :: Ts => by
    intro U member
    rcases List.mem_cons.1 member with same | member
    · rw [same]
      exact TypeExpr.reads T
    · exact reads_types Ts U member

theorem reads_propertyTypes {S : List Char} : (qs : List (PropertyHead × TypeExpr)) →
    ∀ q ∈ qs, ReadsType (FollowedBy typeTails) S q.2.chars q.2.names
  | [] => by simp
  | (h, T) :: qs => by
    intro q member
    rcases List.mem_cons.1 member with same | member
    · rw [same]
      exact TypeExpr.reads T
    · exact reads_propertyTypes qs q member

theorem reads_parameterTypes {S : List Char} : (qs : List (ParameterHead × TypeExpr)) →
    ∀ q ∈ qs, ReadsType (FollowedBy typeTails) S q.2.chars q.2.names
  | [] => by simp
  | (h, T) :: qs => by
    intro q member
    rcases List.mem_cons.1 member with same | member
    · rw [same]
      exact TypeExpr.reads T
    · exact reads_parameterTypes qs q member

end

end SourceSpecs.Syntax
