import SourceSpecs.Proofs.SignatureText
import SourceSpecs.Proofs.TypeReading
/-!
Parameters are read back from their text, one by one and as a list.
-/
namespace SourceSpecs.Syntax

open Grammar

section Reading

variable {S v : List Char} {e : Ending} {c : Cursor} {o p : Nat}

theorem names_as (declared : Bool) (x : Field) (t : Tree) :
    Tree.names S declared (t.as x) = Tree.names S declared t := by
  obtain ⟨k, y, s, cs⟩ := t
  by_cases generic : k = .genericType
  · subst generic
    rfl
  · by_cases qualified : k = .qualifiedName
    · subst qualified
      rfl
    · rw [Tree.as, names_other declared generic qualified, names_other declared generic qualified]
      rfl

def valueForms : List F := [
  unaryOperator ++ rule (.operand false), yielding false, arrowFunction false,
  rule .typeArguments ++ rule (.operand false), construction, definition, destructuring,
  (rule .parenthesized <|> valueName) ++ Form.opt (.onward (assignment false)), literalValue]

def parameterEnds : List Char := [',', ')']

theorem parameterEnds_known : ∀ x ∈ parameterEnds, x ∈ openMarks := by decide

theorem Follows.integer (follows : Follows parameterEnds v) : v.head? ≠ some '.' := by
  have checked : ∀ x ∈ parameterEnds, x ≠ '.' := by decide
  obtain ⟨x, listed, t, rfl | rfl⟩ := follows
  · simpa using checked x listed
  · simp

theorem Numeral.shown (n : Numeral) (o : Nat) (v : List Char) :
    Before ⟨o, n.digits ++ v⟩ o (n.digits ++ v) := by
  obtain ⟨x, u, digits, digit⟩ := n.begins
  rw [digits]
  apply before_of_part
  rw [isIdentifierPart, digit, Bool.or_true]

theorem reads_numeral (n : Numeral) (stop : p = o + n.digits.length) (follows : Follows parameterEnds v) :
    (rule (.operand false) : F).reads? e ⟨o, n.digits ++ v⟩ = some ([.leaf .number ⟨o, p⟩], ⟨p, v⟩) := by
  have before := n.shown o v
  have ends := follows.endsWord parameterEnds_known
  obtain ⟨x, listed, behind⟩ := follows.meets parameterEnds_known
  have leads : Meets [.number, .mark [x]] ⟨o, n.digits ++ v⟩ :=
    .cons before (.number n.literal n.starts ends follows.integer) (behind _)
  have misfits : ∀ x ∈ parameterEnds,
      (valueForms.take 8).all (·.misfits [.number, .mark [x]]) = true ∧
        ([template, array, object, token .regularExpression] : List F).all
          (·.misfits [.number, .mark [x]]) = true := by decide
  obtain ⟨earlier, no_literal⟩ := misfits x listed
  have literal : literalValue.reads? e ⟨o, n.digits ++ v⟩ = _ :=
    reads_choice_before (i := 4) rfl leads no_literal (reads_number n.literal before ends follows.integer)
  have operand : (Form.choice valueForms).reads? e ⟨o, n.digits ++ v⟩ = _ :=
    reads_choice_before (i := 8) rfl leads earlier literal
  rw [stop]
  exact reads_rule operand

theorem reads_negative (n : Numeral) (stop : p = o + (n.digits.length + 1)) (follows : Follows parameterEnds v) :
    (rule (.operand false) : F).reads? e ⟨o, '-' :: (n.digits ++ v)⟩ =
      some ([.leaf (.symbol ['-']) ⟨o, o + 1⟩, .leaf .number ⟨o + 1, p⟩], ⟨p, v⟩) := by
  have minus : Before ⟨o, '-' :: (n.digits ++ v)⟩ o (['-'] ++ (n.digits ++ v)) :=
    .here (by decide) (by decide)
  have leads : Meets [.mark ['-'], .number] ⟨o, '-' :: (n.digits ++ v)⟩ :=
    .cons minus (.mark ⟨'-', rfl, by decide⟩) (.cons (n.shown _ v)
      (.number n.literal n.starts (follows.endsWord parameterEnds_known) follows.integer) (.nil _))
  have alone : ∀ x ∈ (n.digits ++ v).head?, x ∉ ['='] := by
    obtain ⟨y, u, digits, digit⟩ := n.begins
    intro x first same
    obtain rfl := List.mem_singleton.1 same
    rw [digits] at first
    obtain rfl := Option.some.inj first
    exact absurd digit (by decide)
  have number := reads_numeral (e := e) (o := o + 1) n (show p = _ by omega) follows
  have sign : unaryOperator.reads? e ⟨o, '-' :: (n.digits ++ v)⟩ = _ :=
    reads_left (reads_choice_before (i := 5) rfl leads (by decide) (reads_mark minus alone))
  exact reads_rule (reads_left (reads_seq sign number))

theorem reads_defaultValue (d : DefaultText) (stop : p = o + d.chars.length)
    (on : S.drop o = d.chars ++ v) (before : Before c o (d.chars ++ v))
    (follows : Follows parameterEnds v) :
    ∃ t, expression.reads? e c = some ([t], ⟨p, v⟩) ∧ t.text S = String.ofList d.chars ∧
      Tree.names S false t = [] := by
  have ends := follows.endsWord parameterEnds_known
  have stops : (Form.onward (continuation false) : F).reads? e ⟨p, v⟩ = none :=
    follows.misfit parameterEnds_known (by decide)
  have eats : (Form.onward (continuation false) : F).eats Rule.eats = true := by decide
  have whole {nodes : List Tree} (operand : (rule (.operand false) : F).reads? e ⟨o, d.chars ++ v⟩ =
      some (nodes, ⟨p, v⟩)) (nameless : nodes.flatMap (Tree.names S false) = []) :
      ∃ t, expression.reads? e c = some ([t], ⟨p, v⟩) ∧ t.text S = String.ofList d.chars ∧
        Tree.names S false t = [] := by
    refine ⟨_, reads_rule (reads_node before (reads_seq operand (reads_many eats (.done _) stops))), ?_, ?_⟩
    · rw [stop]
      exact text_node on
    · rw [names_inner _ rfl, List.append_nil, nameless]
  have here := before.stays
  cases d with
  | name i =>
    obtain ⟨x, listed, behind⟩ := follows.meets parameterEnds_known
    have leads : Meets [.name, .mark [x]] ⟨o, i.chars ++ v⟩ := .cons here (.name i ends) (behind _)
    have misfits : ∀ x ∈ parameterEnds, (valueForms.take 7).all (·.misfits [.name, .mark [x]]) = true ∧
        (rule .parenthesized : F).misfits [.name, .mark [x]] = true ∧
        (Form.onward (assignment false) : F).misfits [.mark [x]] = true := by decide
    obtain ⟨earlier, no_parenthesis, no_assignment⟩ := misfits x listed
    have named : valueName.reads? e ⟨o, i.chars ++ v⟩ =
        some ([.leaf .identifier ⟨o, o + i.chars.length⟩], ⟨o + i.chars.length, v⟩) :=
      reads_name i here ends (by decide)
    have operand : ((rule .parenthesized <|> valueName) ++ Form.opt (.onward (assignment false)) : F).reads? e
        ⟨o, i.chars ++ v⟩ = _ :=
      reads_seq ((reads_right (reads?_of_misfits leads no_parenthesis)).trans named)
        (reads_opt_none (reads?_of_misfits (behind _) no_assignment))
    rw [show o + i.chars.length = p from stop.symm] at operand
    have chosen : (Form.choice valueForms).reads? e ⟨o, i.chars ++ v⟩ = _ :=
      reads_choice_before (i := 7) rfl leads earlier operand
    apply whole (reads_rule chosen)
    simp [names_leaf (k := .identifier) false rfl]
  | number negative n =>
    cases negative with
    | false =>
      apply whole (reads_numeral n stop follows)
      simp [names_leaf (k := .number) false rfl]
    | true =>
      apply whole (reads_negative n (by simpa [DefaultText.chars] using stop) follows)
      simp [names_leaf (k := .number) false rfl]

theorem find?_field {x : Field} {nodes more : List Tree} (others : ∀ t ∈ nodes, t.field ≠ some x) :
    (nodes ++ more).find? (fun t => t.field == some x) = more.find? (fun t => t.field == some x) := by
  rw [List.find?_append, List.find?_eq_none.2, Option.none_or]
  intro t member
  simpa using others t member

open ParameterText

theorem reads_default (d : Option DefaultText) (stop : p = o + (defaultChars d).length)
    (on : S.drop o = defaultChars d ++ v) (follows : Follows parameterEnds v) :
    ∃ nodes, (Form.opt initializer).reads? e ⟨o, defaultChars d ++ v⟩ = some (nodes, ⟨p, v⟩) ∧
      (nodes.find? fun t => t.field == some .value).map (Tree.text S) =
        d.map (fun d => String.ofList d.chars) ∧
      (∀ t ∈ nodes, t.field ≠ some .pattern ∧ t.field ≠ some .typing) ∧
      nodes.flatMap (Tree.names S false) = [] := by
  cases d with
  | none =>
    obtain rfl := stop
    have misfit : initializer.reads? e ⟨p, v⟩ = none := follows.misfit parameterEnds_known (by decide)
    exact ⟨[], reads_opt_none misfit, rfl, by simp, rfl⟩
  | some d =>
    have sign : Before ⟨o, ' ' :: '=' :: ' ' :: (d.chars ++ v)⟩ (o + 1) (['='] ++ ' ' :: (d.chars ++ v)) :=
      .space (.here (by decide) (by decide))
    have on_value : S.drop (o + 3) = d.chars ++ v := drop_behind (w := [' ', '=', ' ']) on
    have shown : Before ⟨o + 3, d.chars ++ v⟩ (o + 3) (d.chars ++ v) := by
      cases d with
      | name i => exact i.shown _ _
      | number negative n =>
        cases negative with
        | false => exact n.shown _ _
        | true => exact .here (by decide) (by decide)
    obtain ⟨t, read, text, names⟩ := reads_defaultValue (e := .expression) (p := p) d
      (by rw [stop, defaultChars, List.length_append]; simp only [List.length_cons, List.length_nil]; omega)
      on_value (shown.space (o := o + 2)) follows
    have free : ∀ x ∈ (' ' :: (d.chars ++ v)).head?, x ∉ "=>".toList := by
      intro x first
      obtain rfl := Option.some.inj first
      decide
    have body : initializer.reads? e ⟨o, ' ' :: '=' :: ' ' :: (d.chars ++ v)⟩ = _ :=
      reads_seq (reads_mark sign free) (reads_field (y := .value) read)
    obtain ⟨k, x, s, cs⟩ := t
    refine ⟨_, reads_opt body, ?_, ?_, ?_⟩
    · exact congrArg Option.some text
    · intro t member
      simp only [markLast, List.singleton_append, List.mem_cons, List.not_mem_nil, or_false] at member
      rcases member with rfl | rfl
      · constructor <;> (intro same; cases same)
      · constructor <;> (intro same; cases same)
    · rw [List.flatMap_append, markLast, List.flatMap_singleton, List.flatMap_singleton, names_mark, names_as,
        names, List.nil_append]

theorem reads_annotation (type : Option TypeText) (stop : p = o + (typeChars type).length)
    (on : S.drop o = typeChars type ++ v) (follows : Follows ('=' :: parameterEnds) v) :
    ∃ nodes, (Form.opt typeMark).reads? e ⟨o, typeChars type ++ v⟩ = some (nodes, ⟨p, v⟩) ∧
      (nodes.find? fun t => t.field == some .typing).map (Signature.typingText S) =
        type.map (fun T => String.ofList T.chars) ∧
      (∀ t ∈ nodes, t.field ≠ some .pattern ∧ t.field ≠ some .value) ∧
      nodes.flatMap (Tree.names S false) = type.elim [] TypeText.names := by
  cases type with
  | none =>
    obtain rfl := stop
    have misfit : typeMark.reads? e ⟨p, v⟩ = none := follows.misfit (by decide) (by decide)
    exact ⟨[], reads_opt_none misfit, rfl, by simp, rfl⟩
  | some T =>
    have type : ReadsType (Follows typeEnds) S T.chars T.names :=
      T.reads.type (fun _ follows => follows.mono (by decide)) typeEnds_follows
    obtain ⟨cs, read, names⟩ := reads_typing (e := e) (p := p) type
      (by rw [stop, typeChars, List.length_append]; simp only [List.length_cons, List.length_nil]; omega)
      on (T.shown _ _) (follows.mono (by decide))
    have text : (Tree.node .typing (Option.some .typing) ⟨o, p⟩ cs).text S =
        String.ofList ([':', ' '] ++ T.chars) := by
      rw [stop]
      exact text_node on
    refine ⟨_, reads_opt (reads_field (y := .typing) read), ?_, ?_, ?_⟩
    · exact congrArg Option.some (typingText_of_text T text)
    · intro t member
      obtain rfl := List.mem_singleton.1 member
      constructor <;> (intro same; cases same)
    · rw [markLast, List.flatMap_singleton, names_as, names_inner _ rfl, names]
      rfl

def parameterTails : List (List Lead) :=
  (":=,)".toList.map fun x => [.mark [x]]) ++ ":=,)".toList.map fun x => [.mark ['?'], .mark [x]]

theorem reads_target (i : Name) {ls : List Lead} (listed : ls ∈ parameterTails)
    (before : Before c o (i.chars ++ v)) (ends : EndsWord v) (meets : Meets ls ⟨o + i.chars.length, v⟩) :
    patternTarget.reads? e c =
      some ([.leaf .identifier ⟨o, o + i.chars.length⟩], ⟨o + i.chars.length, v⟩) := by
  have leads : Meets (.name :: ls) c := .cons before (.name i ends) meets
  have misfits : ∀ ls ∈ parameterTails, (rule .objectPattern : F).misfits (.name :: ls) = true ∧
      (rule .arrayPattern : F).misfits (.name :: ls) = true ∧ place.misfits (.name :: ls) = true ∧
        undefinedValue.misfits (.name :: ls) = true := by decide
  obtain ⟨no_object, no_array, no_place, no_undefined⟩ := misfits ls listed
  have named : valueName.reads? e _ = _ := reads_name i before ends (by decide)
  exact (reads_right (reads?_of_misfits leads no_object)).trans
    ((reads_right (reads?_of_misfits leads no_array)).trans
      ((reads_right (reads?_of_misfits leads no_place)).trans
        ((reads_right (reads?_of_misfits leads no_undefined)).trans named)))

def parameterModifiers : F :=
  Form.many (rule .decorator) ++
    Form.opt (parameterModifier "public" <|> parameterModifier "private" <|>
      parameterModifier "protected") ++
    Form.opt (parameterModifier "override") ++ Form.opt (parameterModifier "readonly")

theorem reads_pattern (spread : Bool) (i : Name) {ls : List Lead} (listed : ls ∈ parameterTails)
    (stop : p = o + ((if spread then ['.', '.', '.'] else []) ++ i.chars).length)
    (on : S.drop o = (if spread then ['.', '.', '.'] else []) ++ (i.chars ++ v))
    (before : Before c o ((if spread then ['.', '.', '.'] else []) ++ (i.chars ++ v)))
    (ends : EndsWord v) (meets : Meets ls ⟨p, v⟩) :
    ∃ t, (parameterModifiers ++ .field .pattern (rule .pattern <|> key "this") : F).reads? e c =
        some ([t.as .pattern], ⟨p, v⟩) ∧
      Signature.patternText S (t.as .pattern) = String.ofList i.chars ∧ Tree.names S false t = [] := by
  cases spread with
  | false =>
    simp only [Bool.false_eq_true, if_false, List.nil_append] at stop on before
    obtain rfl := stop
    have leads : Meets (.name :: ls) c := .cons before (.name i ends) meets
    have idle := reads?_of_idles (f := parameterModifiers) (e := e) (.cons before (.name i ends) (.nil _))
      (by decide)
    have misfits : ∀ ls ∈ parameterTails, restPattern.misfits (.name :: ls) = true := by decide
    have target := reads_target (e := e) i listed before ends meets
    have pattern : (rule .pattern : F).reads? e c = _ :=
      reads_rule ((reads_right (reads?_of_misfits leads (misfits ls listed))).trans target)
    refine ⟨_, (reads_behind idle).trans (reads_field (reads_left pattern)), ?_, names_leaf _ rfl⟩
    exact text_node on
  | true =>
    simp only [if_true] at stop on before
    have name_here : Before ⟨o + 3, i.chars ++ v⟩ (o + 3) (i.chars ++ v) := i.whole.shown _ _
    have opens (d : Cursor) (here : Before d o ('.' :: '.' :: '.' :: (i.chars ++ v))) :
        Meets [.mark ['.', '.', '.'], .name] d :=
      .cons (w := ['.', '.', '.']) here (.mark ⟨'.', rfl, by decide⟩)
        (.cons name_here (.name i ends) (.nil _))
    have idle := reads?_of_idles (f := parameterModifiers) (e := e) (opens c before) (by decide)
    obtain rfl : p = o + 3 + i.chars.length := by
      rw [stop, List.length_append]
      simp only [List.length_cons, List.length_nil]
      omega
    have target := reads_target (e := e) i listed name_here ends meets
    have dots : (sym "...").reads? e _ = _ := reads_mark (u := ['.', '.', '.']) before.stays (by simp)
    have pattern : (rule .pattern : F).reads? e c = _ :=
      reads_rule (reads_left (reads_node before (reads_seq dots target)))
    refine ⟨_, (reads_behind idle).trans (reads_field (reads_left pattern)), ?_, ?_⟩
    · exact text_node (drop_behind (w := ['.', '.', '.']) on)
    · rw [names_inner _ rfl]
      simp [names_leaf (k := .identifier) false rfl]

theorem follows_default (d : Option DefaultText) (follows : Follows parameterEnds v) :
    Follows ('=' :: parameterEnds) (defaultChars d ++ v) := by
  cases d with
  | none => exact follows.mono (by decide)
  | some d => exact ⟨'=', by decide, _, Or.inr rfl⟩

theorem follows_type (type : Option TypeText) (follows : Follows ('=' :: parameterEnds) v) :
    Follows (':' :: '=' :: parameterEnds) (typeChars type ++ v) := by
  cases type with
  | none => exact follows.mono (by decide)
  | some T => exact ⟨':', by decide, _, Or.inl rfl⟩

theorem parameterTails_meets (optional : Bool) (follows : Follows (':' :: '=' :: parameterEnds) v) :
    EndsWord ((if optional then ['?'] else []) ++ v) ∧
      ∃ ls ∈ parameterTails, ∀ p, Meets ls ⟨p, (if optional then ['?'] else []) ++ v⟩ := by
  obtain ⟨x, listed, meets⟩ := follows.meets (by decide)
  cases optional with
  | false =>
    have tails : ∀ x ∈ ':' :: '=' :: parameterEnds, [Lead.mark [x]] ∈ parameterTails := by decide
    exact ⟨follows.endsWord (by decide), _, tails x listed, meets⟩
  | true =>
    have tails : ∀ x ∈ ':' :: '=' :: parameterEnds,
        [Lead.mark ['?'], Lead.mark [x]] ∈ parameterTails := by decide
    refine ⟨?_, _, tails x listed, ?_⟩
    · intro y first
      obtain rfl := Option.some.inj first
      decide
    · intro p
      exact .cons (w := ['?']) (.here (by decide) (by decide)) (.mark ⟨'?', rfl, by decide⟩) (meets _)

theorem paramOf_parts {name : Tree} {mark type value : List Tree} {x : Option Field} {s : Span}
    (unmarked : ∀ t ∈ mark, t.field = none)
    (typed : ∀ t ∈ type, t.field ≠ some .pattern ∧ t.field ≠ some .value)
    (valued : ∀ t ∈ value, t.field ≠ some .typing) :
    Signature.paramOf S (.node .parameter x s ([name.as .pattern] ++ mark ++ type ++ value)) =
      { name := Signature.patternText S (name.as .pattern)
        type := (type.find? fun t => t.field == some .typing).map (Signature.typingText S)
        default := (value.find? fun t => t.field == some .value).map (Tree.text S) } := by
  have played : (name.as .pattern).field = some .pattern := by
    cases name
    rfl
  have no_type : ∀ t ∈ [name.as .pattern] ++ mark, t.field ≠ some .typing := by
    intro t member
    rcases List.mem_append.1 member with member | member
    · rw [List.mem_singleton.1 member, played]
      simp
    · simp [unmarked t member]
  have no_value : ∀ t ∈ [name.as .pattern] ++ mark ++ type, t.field ≠ some .value := by
    intro t member
    rcases List.mem_append.1 member with member | member
    · rcases List.mem_append.1 member with member | member
      · rw [List.mem_singleton.1 member, played]
        simp
      · simp [unmarked t member]
    · exact (typed t member).2
  have type_last : value.find? (fun t => t.field == some .typing) = none := by
    rw [List.find?_eq_none]
    intro t member
    simpa using valued t member
  have pattern : ([name.as .pattern] ++ mark ++ type ++ value).find? (fun t => t.field == some .pattern) =
      some (name.as .pattern) := by
    rw [List.append_assoc, List.append_assoc, List.singleton_append,
      List.find?_cons_of_pos (by simp [played])]
  have typing : ([name.as .pattern] ++ mark ++ type ++ value).find? (fun t => t.field == some .typing) =
      type.find? (fun t => t.field == some .typing) := by
    rw [List.append_assoc, find?_field no_type, List.find?_append, type_last, Option.or_none]
  have given : ([name.as .pattern] ++ mark ++ type ++ value).find? (fun t => t.field == some .value) = _ :=
    find?_field no_value
  simp only [Signature.paramOf, Tree.child?, Tree.children, pattern, typing, given]
  rfl

/-- A node is the parameter that was written. -/
structure IsParameter (S : List Char) (a : ParameterText) (t : Tree) : Prop where
  kind : t.kind = .parameter
  param : Signature.paramOf S t = a.param
  names : Tree.names S false t = a.names

/-- A parameter is read back from its text. -/
theorem reads_parameter (a : ParameterText) :
    ReadsNode S parameter e (Follows parameterEnds) (IsParameter S a) a.chars := by
  intro c o p v stop on before follows
  have follows_type := follows_type a.type (follows_default a.default follows)
  obtain ⟨ends, ls, listed, meets⟩ := parameterTails_meets a.optional follows_type
  simp only [ParameterText.chars, List.append_assoc] at on before
  have here := before.stays
  obtain ⟨name, pattern, name_text, nameless⟩ :=
    reads_pattern (e := e) a.spread a.name.name listed rfl on here ends (meets _)
  rw [← List.append_assoc] at on
  have on_mark := drop_behind on
  obtain ⟨mark, optional, unmarked, markless⟩ := reads_optional (S := S) (e := e) a.optional rfl follows_type
  have on_type := drop_behind on_mark
  obtain ⟨type, annotation, type_text, typed, type_names⟩ :=
    reads_annotation (e := e) a.type rfl on_type (follows_default a.default follows)
  obtain ⟨value, default, value_text, valued, valueless⟩ :=
    reads_default (e := e) a.default rfl (drop_behind on_type) follows
  have body := reads_seq (reads_seq (reads_seq pattern optional) annotation) default
  have whole : o + ((if a.spread then ['.', '.', '.'] else []) ++ a.name.chars).length +
      (if a.optional then ['?'] else []).length + (typeChars a.type).length +
        (defaultChars a.default).length = p := by
    rw [stop]
    simp only [ParameterText.chars, List.length_append, Nat.add_assoc]
  rw [whole] at body
  refine ⟨_, reads_node before body, rfl, ?_, ?_⟩
  · rw [paramOf_parts unmarked typed fun t member => (valued t member).2, name_text, type_text, value_text]
    rfl
  · rw [names_inner _ rfl]
    simp only [List.flatMap_append, List.flatMap_singleton, names_as, nameless, markless, type_names,
      valueless, List.nil_append, List.append_nil]
    rfl

theorem ParameterText.shown (a : ParameterText) (o : Nat) (v : List Char) :
    Before ⟨o, a.chars ++ v⟩ o (a.chars ++ v) := by
  obtain ⟨spread, name, optional, type, default⟩ := a
  cases spread with
  | false =>
    rw [chars, List.append_assoc, List.append_assoc]
    exact name.shown o _
  | true => exact .here (by decide) (by decide)

theorem Weaves.filter {nodes ts : List Tree} {k : Kind} (no_mark : ∀ m, k ≠ .symbol m)
    (kinds : ∀ t ∈ ts, t.kind = k) (h : Weaves nodes ts) : nodes.filter (·.kind == k) = ts := by
  induction h with
  | nil => rfl
  | node t h ih =>
    rw [List.filter_cons_of_pos (by simp [kinds t List.mem_cons_self]),
      ih fun u member => kinds u (List.mem_cons_of_mem t member)]
  | mark m s h ih =>
    have apart : (Tree.leaf (.symbol m) s).kind ≠ k := Ne.symm (no_mark m)
    rw [List.filter_cons_of_neg (by simpa using apart), ih kinds]

structure IsParameterList (S : List Char) (as : List ParameterText) (t : Tree) : Prop where
  params : (t.childrenOf .parameter).map (Signature.paramOf S) = as.map ParameterText.param
  names : Tree.names S false t = as.flatMap ParameterText.names

theorem params_of_forall₂ {as : List ParameterText} {ts : List Tree}
    (goods : List.Forall₂ (IsParameter S) as ts) :
    (∀ t ∈ ts, t.kind = .parameter) ∧ ts.map (Signature.paramOf S) = as.map ParameterText.param := by
  induction goods with
  | nil => simp
  | cons good _ ih =>
    constructor
    · intro t member
      rcases List.mem_cons.1 member with rfl | member
      · exact good.kind
      · exact ih.1 t member
    · rw [List.map_cons, List.map_cons, good.param, ih.2]

theorem isParameterList {as : List ParameterText} {nodes ts : List Tree} {x : Option Field} {s l r : Span}
    (goods : List.Forall₂ (IsParameter S) as ts) (weaves : Weaves nodes ts) :
    IsParameterList S as (.node .parameters x s
      ([.leaf (.symbol ['(']) l] ++ nodes ++ [.leaf (.symbol [')']) r])) := by
  obtain ⟨kinds, params⟩ := params_of_forall₂ goods
  have whole := ((Weaves.mark ['('] l .nil).append weaves).append (.mark [')'] r .nil)
  rw [List.nil_append, List.append_nil] at whole
  constructor
  · rw [Tree.childrenOf, Tree.children, Weaves.filter (by simp) kinds whole, params]
  · exact names_listed false rfl (goods.imp fun _ _ good => good.names) weaves

theorem reads_parameters (as : List ParameterText)
    (stop : p = o + ((setApart [',', ' '] (as.map ParameterText.chars)).length + 2))
    (on : S.drop o = '(' :: (setApart [',', ' '] (as.map ParameterText.chars) ++ ')' :: v)) :
    ∃ t, (rule .parameters : F).reads? e
        ⟨o, '(' :: (setApart [',', ' '] (as.map ParameterText.chars) ++ ')' :: v)⟩ =
          some ([t], ⟨p, v⟩) ∧ IsParameterList S as t := by
  have opens (u : List Char) : Before ⟨o, '(' :: u⟩ o ('(' :: u) := .here (by decide) (by decide)
  obtain ⟨nodes, ts, l, r, list, goods, weaves⟩ := reads_list (e := e) (x := '(') (y := ')')
    (fun a (_ : a ∈ as) => reads_parameter (e := .never) a) (fun a _ o v => a.shown o v)
    (fun v => ⟨',', by decide, v, Or.inl rfl⟩) (fun v => ⟨')', by decide, v, Or.inl rfl⟩) (by decide)
    (by decide) (by decide) (by decide) stop on (opens _)
  exact ⟨_, reads_rule (reads_node (opens _) list), isParameterList goods weaves⟩

end Reading

end SourceSpecs.Syntax
