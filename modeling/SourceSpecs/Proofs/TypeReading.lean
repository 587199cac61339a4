import SourceSpecs.Proofs.Composition
import SourceSpecs.Proofs.MovedTree
import SourceSpecs.Proofs.TypeExpression
import SourceSpecs.Proofs.TypeText
/-!
A type is read back from its text, up to the mark that follows it. The names that its nodes refer to
are those of the type.
-/
namespace SourceSpecs.Syntax

open Grammar

def Kind.isInner : Kind → Bool
  | .genericType | .qualifiedName | .typeName | .pairPattern | .importStatement => false
  | k => !k.declaresType

section Names

variable {S : List Char} {k : Kind} {x : Option Field} {s : Span} {cs ts : List Tree}

theorem namesOfAll_none : Tree.namesOfAll S none ts = ts.flatMap (Tree.names S false) := by
  induction ts with
  | nil => rfl
  | cons t ts ih =>
    rw [Tree.namesOfAll, ih, List.flatMap_cons]
    rfl

theorem names_inner (declared : Bool) (inner : k.isInner = true) :
    Tree.names S declared (.node k x s cs) = cs.flatMap (Tree.names S false) := by
  have not_type : k.declaresType = false := by
    cases k <;> simp_all [Kind.isInner, Kind.declaresType]
  have no_name : (Tree.node k x s cs).declaredName? = none := by
    simp [Tree.declaredName?, Tree.kind, not_type]
  have none_own : Tree.ownNames S declared (.node k x s cs) = [] := by
    unfold Tree.ownNames
    cases k <;> first | rfl | cases inner
  rw [names_other declared, none_own, no_name, namesOfAll_none, List.nil_append]
  · rintro rfl
    cases inner
  · rintro rfl
    cases inner

theorem names_leaf (declared : Bool) (inner : k.isInner = true) :
    Tree.names S declared (.leaf k s) = [] := names_inner declared inner

@[simp] theorem names_mark (declared : Bool) (m : List Char) :
    Tree.names S declared (.leaf (.symbol m) s) = [] := names_inner declared rfl

@[simp] theorem names_keyword (declared : Bool) (w : List Char) :
    Tree.names S declared (.leaf (.keyword w) s) = [] := names_inner declared rfl

theorem names_applied (declared : Bool) (t : Tree) :
    Tree.names S declared (.node .genericType x s (t.as .name :: ts)) = [t.text S] := by
  obtain ⟨k, y, s', cs⟩ := t
  rw [Tree.names, Tree.child?, Tree.children, List.find?_cons_of_pos rfl]
  rfl

theorem text_node {o : Nat} {w t : List Char} (on : S.drop o = w ++ t) :
    (Tree.node k x ⟨o, o + w.length⟩ cs).text S = String.ofList w := by
  rw [Tree.text, Tree.span, Span.slice, on, Nat.add_sub_cancel_left, List.take_left]

end Names

/-- The next character that is no space is one of the given ones. At most one space comes first. -/
def Follows (cs v : List Char) : Prop := ∃ x ∈ cs, ∃ t, v = x :: t ∨ v = ' ' :: x :: t

def typeEnds : List Char := ",)=>;]\x7d\x7b".toList

def closingMarks : List Char := ",)>;]".toList

def operandEnds : List Char := "[|&".toList ++ typeEnds

section Follows

variable {cs v w : List Char} {f : Form Rule} {e : Ending} {c : Cursor} {o p : Nat} {l : Lead}

theorem Follows.meets (known : ∀ x ∈ cs, x ∈ openMarks) (h : Follows cs v) :
    ∃ x ∈ cs, ∀ p, Meets [.mark [x]] ⟨p, v⟩ := by
  obtain ⟨x, member, t, shape⟩ := h
  refine ⟨x, member, ?_⟩
  intro p
  have shows : (Lead.mark [x]).Shows [x] t := .mark ⟨x, rfl, known x member⟩
  rcases shape with rfl | rfl
  · exact shows.meets _
  · exact (shows.meets _).space

theorem Follows.endsWord (known : ∀ x ∈ cs, x ∈ openMarks) (h : Follows cs v) : EndsWord v := by
  have checked : ∀ x ∈ openMarks, isNamePart x = false ∧ x ≠ '\\' := by decide
  obtain ⟨x, member, t, rfl | rfl⟩ := h
  · intro y first
    obtain rfl := Option.some.inj first
    exact checked x (known x member)
  · intro y first
    obtain rfl := Option.some.inj first
    decide

theorem Follows.mono {cs' : List Char} (sub : ∀ x ∈ cs, x ∈ cs') (h : Follows cs v) : Follows cs' v := by
  obtain ⟨x, member, further⟩ := h
  exact ⟨x, sub x member, further⟩

theorem Follows.misfit (known : ∀ x ∈ cs, x ∈ openMarks)
    (misfits : cs.all (fun x => f.misfits [.mark [x]]) = true) (h : Follows cs v) :
    f.reads? e ⟨p, v⟩ = none := by
  obtain ⟨x, member, meets⟩ := h.meets known
  exact reads?_of_misfits (meets p) (List.all_eq_true.1 misfits x member)

theorem Follows.misfit_behind (known : ∀ x ∈ cs, x ∈ openMarks)
    (misfits : cs.all (fun x => f.misfits [l, .mark [x]]) = true) (h : Follows cs v)
    (before : Before c o (w ++ v)) (shows : l.Shows w v) : f.reads? e c = none := by
  obtain ⟨x, member, meets⟩ := h.meets known
  exact reads?_of_misfits (.cons before shows (meets _)) (List.all_eq_true.1 misfits x member)

end Follows

/-- What may follow an operand of a type. An operator may, among others. -/
structure OperandEnds (ends : List Char → Prop) : Prop where
  follows : ∀ {v}, ends v → Follows operandEnds v
  brackets : ∀ v, ends ('[' :: ']' :: v)
  operator : ∀ x ∈ ['|', '&'], ∀ v, ends (' ' :: x :: ' ' :: v)

structure TypeEnds (ends : List Char → Prop) : Prop where
  follows : ∀ {v}, ends v → Follows typeEnds v
  mark : ∀ x ∈ closingMarks, ∀ v, ends (x :: v)
  brace : ∀ v, ends (' ' :: '\x7d' :: v)

theorem operandEnds_follows : OperandEnds (Follows operandEnds) where
  follows := id
  brackets v := ⟨'[', by decide, _, Or.inl rfl⟩
  operator x known v :=
    have listed : ∀ x ∈ ['|', '&'], x ∈ operandEnds := by decide
    ⟨x, listed x known, _, Or.inr rfl⟩

theorem typeEnds_follows : TypeEnds (Follows typeEnds) where
  follows := id
  mark x known v :=
    have listed : ∀ x ∈ closingMarks, x ∈ typeEnds := by decide
    ⟨x, listed x known, v, Or.inl rfl⟩
  brace v := ⟨'\x7d', by decide, v, Or.inr rfl⟩

/-- A text is read as an operand of a type with operators behind it, and its nodes refer to the
    given names. -/
def ReadsAsType (ends : List Char → Prop) (S w : List Char) (names : List String) : Prop :=
  ∀ e c o p v, p = o + w.length → S.drop o = w ++ v → Before c o (w ++ v) → ends v →
    ∃ head d tail, typeOperand.reads? e c = some (head, d) ∧
      Runs (.onward typeOperator) e d tail ⟨p, v⟩ ∧
      (head ++ tail).flatMap (Tree.names S false) = names

def ReadsType (ends : List Char → Prop) (S w : List Char) (names : List String) : Prop :=
  ∀ e, ReadsNode S (rule .type) e ends (fun t => t.kind = .type ∧ t.names S false = names) w

section Reading

variable {S w u v : List Char} {ns ms : List String} {e : Ending} {c : Cursor} {o p : Nat}
  {ends ends' : List Char → Prop}

theorem operandEnds_known : ∀ x ∈ operandEnds, x ∈ openMarks := by decide

theorem typeEnds_known : ∀ x ∈ typeEnds, x ∈ openMarks := by decide

theorem ReadsAsType.type (type : ReadsAsType ends S w ns) (ended : ∀ v, ends' v → ends v)
    (ending : TypeEnds ends') : ReadsType ends' S w ns := by
  intro e c o p v stop on before closes
  obtain ⟨head, d, tail, operand, operators, names⟩ :=
    type e ⟨o, w ++ v⟩ o p v stop on before.stays (ended v closes)
  have stops : (Form.onward typeOperator).reads? e ⟨p, v⟩ = none :=
    (ending.follows closes).misfit typeEnds_known (by decide)
  refine ⟨.node .type none ⟨o, p⟩ (head ++ tail), ?_, rfl, ?_⟩
  · apply reads_rule
    apply reads_node before
    exact reads_seq (reads_rule operand) (reads_many (by decide) operators stops)
  · rw [names_inner _ rfl, names]

theorem reads_typing (type : ReadsType ends S w ns) (stop : p = o + (w.length + 2))
    (on : S.drop o = ':' :: ' ' :: (w ++ v)) (shown : Before ⟨o + 2, w ++ v⟩ (o + 2) (w ++ v))
    (ended : ends v) :
    ∃ cs, (Form.rule .typing).reads? e ⟨o, ':' :: ' ' :: (w ++ v)⟩ =
        some ([.node .typing none ⟨o, p⟩ cs], ⟨p, v⟩) ∧ cs.flatMap (Tree.names S false) = ns := by
  have here : Before ⟨o, ':' :: ' ' :: (w ++ v)⟩ o ([':'] ++ ' ' :: (w ++ v)) :=
    .here (by decide) (by decide)
  have on_type : S.drop (o + 2) = w ++ v := drop_behind (w := [':', ' ']) on
  obtain ⟨t, read, _, names⟩ := type e ⟨o + 1, ' ' :: (w ++ v)⟩ (o + 2) p v (by omega) on_type
    shown.space ended
  refine ⟨_, reads_rule (reads_node here (reads_seq (reads_mark here (by simp)) read)), ?_⟩
  rw [List.flatMap_append, List.flatMap_singleton, List.flatMap_singleton, names_leaf _ rfl, names,
    List.nil_append]

theorem onward_typeOperator {x : Char} {t : List Char} {nodes : List Tree} {d : Cursor}
    (before : Before c o (x :: t)) (not_brace : x ≠ '\x7d')
    (h : typeOperator.reads? e c = some (nodes, d)) :
    (Form.onward typeOperator).reads? e c = some (nodes, d) := by
  apply reads_onward _ h
  apply before.not_endsAt
  simpa using not_brace

theorem ReadsAsType.array (ending : OperandEnds ends) (element : ReadsAsType ends S w ns) :
    ReadsAsType ends S (w ++ ['[', ']']) ns := by
  intro e c o p v stop on before _
  rw [List.append_assoc] at on before
  obtain ⟨head, d, tail, operand, operators, names⟩ := element e c o _ _ rfl on before (ending.brackets v)
  have opens : Before ⟨o + w.length, '[' :: ']' :: v⟩ (o + w.length) (['['] ++ ']' :: v) :=
    .here (by decide) (by decide)
  have closes : Before ⟨o + w.length + 1, ']' :: v⟩ (o + w.length + 1) ([']'] ++ v) :=
    .here (by decide) (by decide)
  have brackets : typeOperator.reads? e ⟨o + w.length, '[' :: ']' :: v⟩ =
      some ([.leaf (.symbol ['[']) ⟨o + w.length, o + w.length + 1⟩,
        .leaf (.symbol [']']) ⟨o + w.length + 1, o + w.length + 2⟩], ⟨o + w.length + 2, v⟩) :=
    reads_choice (i := 0) rfl (by simp) (reads_seq (reads_mark opens (by simp)) (reads_mark closes (by simp)))
  obtain rfl : p = o + w.length + 2 := by
    rw [stop, List.length_append]
    rfl
  refine ⟨head, d, _, operand,
    operators.append (.single (onward_typeOperator opens (by decide) brackets)), ?_⟩
  rw [← List.append_assoc, List.flatMap_append, names]
  simp

/-- Two types with an operator between them. -/
theorem ReadsAsType.joined {x : Char} {stops : List Char} {i : Nat} (ending : OperandEnds ends)
    (left : ReadsAsType ends S w ns) (right : ReadsAsType ends S u ms)
    (shown : ∀ o v, Before ⟨o, u ++ v⟩ o (u ++ v)) (known : x ∈ ['|', '&']) (free : ' ' ∉ stops)
    (here : [sym "[" ++ sym "]", enclosed "[" (rule .type) "]", bar ++ rule .typeOperand,
      ampersand ++ rule .typeOperand, conditionalType][i]? =
        some (.seq (.token (.symbol [x] stops)) (.rule .typeOperand)))
    (misfits : ([sym "[" ++ sym "]", enclosed "[" (rule .type) "]", bar ++ rule .typeOperand,
      ampersand ++ rule .typeOperand, conditionalType].take i).all (·.misfits [.mark [x]]) = true) :
    ReadsAsType ends S (w ++ [' ', x, ' '] ++ u) (ns ++ ms) := by
  intro e c o p v stop on before ended
  rw [List.append_assoc, List.append_assoc] at on before
  have checked : ∀ x ∈ ['|', '&'], x ∈ openMarks ∧ x ≠ '\x7d' := by decide
  obtain ⟨opens, no_brace⟩ := checked x known
  obtain ⟨head, d, tail, operand, operators, names⟩ :=
    left e c o _ _ rfl on before (ending.operator x known (u ++ v))
  have shows : (Lead.mark [x]).Shows [x] (' ' :: (u ++ v)) := .mark ⟨x, rfl, opens⟩
  have mark_here : Before ⟨o + w.length, ' ' :: x :: ' ' :: (u ++ v)⟩ (o + w.length + 1)
      ([x] ++ ' ' :: (u ++ v)) := shows.before.space
  have on_right : S.drop (o + w.length + 3) = u ++ v := drop_behind (w := [' ', x, ' ']) (drop_behind on)
  obtain ⟨head', d', tail', operand', operators', names'⟩ :=
    right e ⟨o + w.length + 2, ' ' :: (u ++ v)⟩ (o + w.length + 3) p v
      (by rw [stop, List.length_append, List.length_append]; simp only [List.length_cons, List.length_nil]; omega)
      on_right (shown _ _).space ended
  have joined : typeOperator.reads? e ⟨o + w.length, ' ' :: x :: ' ' :: (u ++ v)⟩ = some (_, d') :=
    reads_choice_before here (.cons mark_here shows (.nil _)) misfits
      (reads_seq (reads_mark mark_here (by simpa using free)) (reads_rule operand'))
  refine ⟨head, d, _, operand,
    operators.append (.round (onward_typeOperator mark_here no_brace joined) operators'), ?_⟩
  rw [← List.append_assoc, List.flatMap_append, names, List.append_assoc, List.flatMap_append, names',
    List.flatMap_singleton, names_mark, List.nil_append]

theorem ReadsAsType.union (ending : OperandEnds ends) (left : ReadsAsType ends S w ns)
    (right : ReadsAsType ends S u ms) (shown : ∀ o v, Before ⟨o, u ++ v⟩ o (u ++ v)) :
    ReadsAsType ends S (w ++ [' ', '|', ' '] ++ u) (ns ++ ms) :=
  .joined (i := 2) ending left right shown (by decide) (by decide) rfl (by decide)

theorem ReadsAsType.intersection (ending : OperandEnds ends) (left : ReadsAsType ends S w ns)
    (right : ReadsAsType ends S u ms) (shown : ∀ o v, Before ⟨o, u ++ v⟩ o (u ++ v)) :
    ReadsAsType ends S (w ++ [' ', '&', ' '] ++ u) (ns ++ ms) :=
  .joined (i := 3) ending left right shown (by decide) (by decide) rfl (by decide)

def operandForms : List F := [
  functionType, constructorType, key "readonly" ++ rule .type, key "keyof" ++ rule .typeOperand,
  inferredType, typeQuery, importType, sym "?" ++ rule .typeOperand, predefinedType, literalType,
  key "this", key "const", sym "*", templateType, rule .objectType, tupleType,
  enclosed "(" (rule .type) ")", namedType]

theorem reads_operand {i : Nat} {f : F} {ls : List Lead} {x : List Tree × Cursor}
    (here : operandForms[i]? = some f) (meets : Meets ls c)
    (unmarked : (Form.many (bar <|> ampersand) : F).idles ls = true)
    (misfits : (operandForms.take i).all (·.misfits ls) = true) (h : f.reads? e c = some x) :
    typeOperand.reads? e c = some x := by
  have idle := reads?_of_idles (e := e) meets unmarked
  exact (reads_behind idle).trans (reads_choice_before here meets misfits h)

theorem mem_words {ws : List String} {w : List Char} (member : w ∈ words ws) : ∃ v ∈ ws, v.toList = w :=
  List.mem_map.1 member

def wordTypes : List (List Char) := predefinedWords ++ literalWords

theorem isWhole_wordType {word : List Char} (known : word ∈ wordTypes) : IsWhole word := by
  have letters : ∀ w ∈ wordTypes, w ≠ [] ∧ w.all isIdentifierStart = true := by decide +kernel
  exact isWhole_of_letters (letters word known).1 (letters word known).2

theorem ReadsAsType.word (ending : OperandEnds ends) {word : List Char} (known : word ∈ wordTypes) :
    ReadsAsType ends S word [] := by
  intro e c o p v stop on before ended
  have ends := (ending.follows ended).endsWord operandEnds_known
  have checked : ∀ w ∈ wordTypes, (Form.many (bar <|> ampersand) : F).idles [.word w] = true := by
    decide +kernel
  have unmarked := checked word known
  have whole := isWhole_wordType known
  have meets : Meets [.word word] c := .cons before (.word whole ends) (.nil _)
  obtain rfl := stop
  have alone {w : List Char} (read : typeOperand.reads? e c =
      some ([.leaf (.keyword w) ⟨o, o + word.length⟩], ⟨o + word.length, v⟩)) :
      ∃ head d tail, typeOperand.reads? e c = some (head, d) ∧
        Runs (.onward typeOperator) e d tail ⟨o + word.length, v⟩ ∧
        (head ++ tail).flatMap (Tree.names S false) = [] :=
    ⟨_, _, [], read, .done _, by simp⟩
  rcases List.mem_append.1 known with predefined | literal
  · have misfits : ∀ w ∈ predefinedWords, (operandForms.take 8).all (·.misfits [.word w]) = true := by
      decide +kernel
    obtain ⟨w, member, rfl⟩ := mem_words predefined
    apply alone
    apply reads_operand (i := 8) rfl meets unmarked (misfits _ predefined)
    exact reads_left (reads_keys member before whole ends)
  · have misfits : ∀ w ∈ literalWords, (operandForms.take 9).all (·.misfits [.word w]) = true ∧
        (token .string : F).misfits [.word w] = true ∧
        (Form.opt (sym "-" <|> sym "+") ++ token .number : F).misfits [.word w] = true := by decide +kernel
    obtain ⟨earlier, no_string, no_number⟩ := misfits _ literal
    obtain ⟨w, member, rfl⟩ := mem_words literal
    apply alone
    apply reads_operand (i := 9) rfl meets unmarked earlier
    exact (reads_right (reads?_of_misfits meets no_string)).trans
      ((reads_right (reads?_of_misfits meets no_number)).trans (reads_keys member before whole ends))

def nameEnds : List Char := '<' :: operandEnds

theorem nameEnds_known : ∀ x ∈ nameEnds, x ∈ openMarks := by decide

theorem before_of_part {x : Char} {t : List Char} (part : isIdentifierPart x = true) :
    Before ⟨o, x :: t⟩ o (x :: t) := by
  have name_part := isNamePart_of_isIdentifierPart part
  constructor
  · rw [isNamePart, Bool.and_eq_true, Bool.and_eq_true, Bool.not_eq_true'] at name_part
    exact name_part.1.2
  · rintro rfl
    exact absurd part (by decide)

theorem Identifier.shown (i : Identifier) (o : Nat) (v : List Char) :
    Before ⟨o, i.chars ++ v⟩ o (i.chars ++ v) := i.isWhole.shown o v

theorem reads_dotted (i : Name) (ends : EndsWord v) :
    (dot ++ anyName .identifier : F).reads? e ⟨o, '.' :: (i.chars ++ v)⟩ =
      some ([.leaf (.symbol ['.']) ⟨o, o + 1⟩, .leaf .identifier ⟨o + 1, o + 1 + i.chars.length⟩],
        ⟨o + 1 + i.chars.length, v⟩) := by
  have opens : Before ⟨o, '.' :: (i.chars ++ v)⟩ o (['.'] ++ (i.chars ++ v)) :=
    .here (by decide) (by decide)
  have single : ∀ x ∈ (i.chars ++ v).head?, x ∉ ['.'] := by
    obtain ⟨y, first, start⟩ := i.whole.head
    intro x head dotted
    obtain rfl := List.mem_singleton.1 dotted
    rw [List.head?_append, first, Option.some_or] at head
    obtain rfl := Option.some.inj head
    exact absurd start (by decide)
  exact reads_seq (reads_mark opens single) (reads_name i (i.whole.shown _ _) ends (by decide))

theorem endsWord_path {path : List Name} (ends : EndsWord v) :
    EndsWord (path.flatMap ('.' :: ·.chars) ++ v) := by
  cases path with
  | nil => exact ends
  | cons i path =>
    intro x first
    obtain rfl := Option.some.inj first
    decide

theorem runs_path (path : List Name) (ends : EndsWord v)
    (stop : p = o + (path.flatMap ('.' :: ·.chars)).length) :
    ∃ nodes, Runs (dot ++ anyName .identifier) e ⟨o, path.flatMap ('.' :: ·.chars) ++ v⟩ nodes ⟨p, v⟩ := by
  induction path generalizing o with
  | nil =>
    obtain rfl := stop
    exact ⟨[], .done _⟩
  | cons i path ih =>
    rw [List.flatMap_cons, List.length_append, List.length_cons] at stop
    obtain ⟨nodes, runs⟩ := ih (o := o + 1 + i.chars.length) (by omega)
    rw [List.flatMap_cons, List.append_assoc]
    exact ⟨_, .round (reads_dotted i (endsWord_path ends)) runs⟩

theorem reads_typeName (first : Name) (path : List Name)
    (stop : p = o + (dottedChars first path).length) (on : S.drop o = dottedChars first path ++ v)
    (before : Before c o (dottedChars first path ++ v)) (follows : Follows nameEnds v) :
    ∃ t, (qualifiedName <|> plainTypeName : F).reads? e c = some ([t], ⟨p, v⟩) ∧
      t.text S = String.ofList (dottedChars first path) ∧ Tree.names S false t = [t.text S] := by
  have ends := follows.endsWord nameEnds_known
  cases path with
  | nil =>
    simp only [dottedChars, List.flatMap_nil, List.append_nil] at stop on before ⊢
    have unqualified : qualifiedName.reads? e c = none :=
      follows.misfit_behind nameEnds_known (by decide) before (.name first ends)
    obtain rfl := stop
    exact ⟨_, (reads_right unqualified).trans (reads_name first before ends (by decide)),
      text_node on, by rw [Tree.leaf, names_other _ (by simp) (by simp)]; rfl⟩
  | cons i path =>
    have text : dottedChars first (i :: path) ++ v =
        first.chars ++ '.' :: (i.chars ++ (path.flatMap ('.' :: ·.chars) ++ v)) := by
      simp [dottedChars]
    have length : (dottedChars first (i :: path)).length =
        first.chars.length + (1 + i.chars.length + (path.flatMap ('.' :: ·.chars)).length) := by
      simp [dottedChars]
      omega
    rw [length] at stop
    have dotted : EndsWord ('.' :: (i.chars ++ (path.flatMap ('.' :: ·.chars) ++ v))) := by
      intro x head
      obtain rfl := Option.some.inj head
      decide
    obtain ⟨nodes, runs⟩ := runs_path (e := e) (o := o + first.chars.length + 1 + i.chars.length) path ends
      (show p = _ by omega)
    have stops : (dot ++ anyName .identifier : F).reads? e ⟨p, v⟩ = none :=
      follows.misfit nameEnds_known (by decide)
    have further := reads_many (by decide) runs stops
    have here := before.stays
    rw [text] at here
    have named : (nameBut .identifier typeWords).reads? e _ = _ := reads_name first here dotted (by decide)
    have body := reads_seq named (reads_seq (reads_dotted i (endsWord_path ends)) further)
    rw [← text] at body
    have whole : p = o + (dottedChars first (i :: path)).length := by omega
    refine ⟨_, reads_left (reads_node before body), ?_, by rw [Tree.names]⟩
    rw [whole]
    exact text_node on

theorem meets_dotted (first : Name) (path : List Name) (ends : EndsWord v) (o : Nat) :
    Meets [.name] ⟨o, dottedChars first path ++ v⟩ := by
  rw [dottedChars, List.append_assoc]
  exact (Lead.Shows.name first (endsWord_path ends)).meets o

theorem ReadsAsType.name (ending : OperandEnds ends) (first : Name) (path : List Name) :
    ReadsAsType ends S (dottedChars first path) [String.ofList (dottedChars first path)] := by
  intro e c o p v stop on before ended
  have follows := ending.follows ended
  have ends := follows.endsWord operandEnds_known
  have follows' : Follows nameEnds v := follows.mono (by decide)
  obtain ⟨t, read, text, names⟩ := reads_typeName (e := e) first path stop on before follows'
  obtain ⟨t', read', _⟩ := reads_typeName (e := e) first path stop on before.stays follows'
  have plain : (rule .typeArguments : F).reads? e ⟨p, v⟩ = none :=
    follows.misfit operandEnds_known (by decide)
  have no_arguments := reads_node_none (k := .genericType) before
    (reads_seq_none (reads_field (y := .name) read') plain)
  have meets := before.meets (meets_dotted first path ends o)
  have operand := reads_operand (e := e) (i := 17) rfl meets (by decide) (by decide)
    ((reads_right no_arguments).trans read)
  refine ⟨_, _, [], operand, .done _, ?_⟩
  rw [List.append_nil, List.flatMap_singleton, names, text]

theorem reads_typeArguments {α : Type} {chars : α → List Char} {names : α → List String} {a : α}
    {as : List α} (ending : TypeEnds ends) (types : ∀ b ∈ a :: as, ReadsType ends S (chars b) (names b))
    (shown : ∀ b ∈ a :: as, ∀ o v, Before ⟨o, chars b ++ v⟩ o (chars b ++ v))
    (stop : p = o + ((setApart [',', ' '] ((a :: as).map chars)).length + 2))
    (on : S.drop o = '<' :: (setApart [',', ' '] ((a :: as).map chars) ++ '>' :: v)) :
    ∃ cs, (rule .typeArguments : F).reads? e
      ⟨o, '<' :: (setApart [',', ' '] ((a :: as).map chars) ++ '>' :: v)⟩ =
        some ([.node .typeArguments none ⟨o, p⟩ cs], ⟨p, v⟩) := by
  have opens (u : List Char) : Before ⟨o, '<' :: u⟩ o ('<' :: u) := .here (by decide) (by decide)
  obtain ⟨nodes, ts, list, _⟩ := reads_commaList (fun b member => types b member .never) shown
    (ending.mark ',' (by decide)) (ending.mark '>' (by decide) v) (by decide) (by decide) (by decide) rfl
    (drop_behind (w := ['<']) on)
  obtain ⟨l, r, whole⟩ := reads_enclosed (e := e) (by decide) stop (opens _) list
  exact ⟨_, reads_rule (reads_node (opens _) whole)⟩

theorem ReadsAsType.applied {α : Type} {chars : α → List Char} {names : α → List String} {a : α}
    {as : List α} (first : Name) (path : List Name) (ending : TypeEnds ends)
    (types : ∀ b ∈ a :: as, ReadsType ends S (chars b) (names b))
    (shown : ∀ b ∈ a :: as, ∀ o v, Before ⟨o, chars b ++ v⟩ o (chars b ++ v)) :
    ReadsAsType ends' S (dottedChars first path ++ '<' :: setApart [',', ' '] ((a :: as).map chars) ++ ['>'])
      [String.ofList (dottedChars first path)] := by
  intro e c o p v stop on before _
  set listed := setApart [',', ' '] ((a :: as).map chars) with listed_eq
  have text : dottedChars first path ++ '<' :: listed ++ ['>'] ++ v =
      dottedChars first path ++ '<' :: (listed ++ '>' :: v) := by simp
  rw [text] at on before
  have opens : Follows nameEnds ('<' :: (listed ++ '>' :: v)) := ⟨'<', by decide, _, Or.inl rfl⟩
  obtain ⟨t, read, text, _⟩ := reads_typeName (e := e) first path rfl on before.stays opens
  obtain ⟨cs, read'⟩ := reads_typeArguments (e := e) (p := p) ending types shown
    (by rw [stop, ← listed_eq]; simp only [List.length_append, List.length_cons, List.length_nil]; omega)
    (drop_behind on)
  have generic := reads_node (k := .genericType) before (reads_seq (reads_field (y := .name) read) read')
  have meets := before.meets (meets_dotted first path (opens.endsWord nameEnds_known) o)
  have operand := reads_operand (e := e) (i := 17) rfl meets (by decide) (by decide)
    (reads_left generic)
  refine ⟨_, _, [], operand, .done _, ?_⟩
  rw [List.append_nil, List.flatMap_singleton, markLast, List.singleton_append, names_applied, text]

def numberLeads : List (List Lead) := [.number] :: "0123456789".toList.map fun x => [.mark ['.', x]]

def typeLeads : List (List Lead) :=
  [.string] :: [.word "unique".toList, .word "symbol".toList] ::
    (numberLeads ++ ("([\x7b-+".toList.map fun x => [.mark [x]]) ++
      (.name :: wordTypes.map .word).flatMap fun l => ('.' :: nameEnds).map fun x => [l, .mark [x]])

theorem mem_typeLeads {l : Lead} {x : Char} (word : l ∈ Lead.name :: wordTypes.map .word)
    (mark : x ∈ '.' :: nameEnds) : [l, .mark [x]] ∈ typeLeads := by
  simp only [typeLeads, List.mem_cons, List.mem_append]
  exact Or.inr (Or.inr (Or.inr (List.mem_flatMap.2 ⟨l, word, List.mem_map.2 ⟨x, mark, rfl⟩⟩)))

theorem leads_mark {x : Char} (known : x ∈ "([\x7b-+".toList) (u : List Char) :
    ∃ ls ∈ typeLeads, ∀ o, Meets ls ⟨o, x :: u⟩ := by
  have checked : ∀ x ∈ "([\x7b-+".toList, x ∈ openMarks ∧ [Lead.mark [x]] ∈ typeLeads := by decide
  obtain ⟨opens, listed⟩ := checked x known
  have shows : (Lead.mark [x]).Shows [x] u := .mark ⟨x, rfl, opens⟩
  exact ⟨_, listed, fun o => shows.meets o⟩

theorem leads_word {word : List Char} (known : word ∈ wordTypes) (follows : Follows operandEnds v) :
    ∃ ls ∈ typeLeads, ∀ o, Meets ls ⟨o, word ++ v⟩ := by
  have marks : ∀ x ∈ operandEnds, x ∈ '.' :: nameEnds := by decide
  obtain ⟨x, listed, meets⟩ := follows.meets operandEnds_known
  have shows : (Lead.word word).Shows word v :=
    .word (isWhole_wordType known) (follows.endsWord operandEnds_known)
  refine ⟨_, mem_typeLeads (List.mem_cons_of_mem _ (List.mem_map.2 ⟨word, known, rfl⟩)) (marks x listed), ?_⟩
  intro o
  exact .cons shows.before shows (meets _)

theorem leads_named (first : Name) (path : List Name) (follows : Follows nameEnds v) :
    ∃ ls ∈ typeLeads, ∀ o, Meets ls ⟨o, dottedChars first path ++ v⟩ := by
  have behind : Follows ('.' :: nameEnds) (path.flatMap ('.' :: ·.chars) ++ v) := by
    cases path with
    | cons i path => exact ⟨'.', by decide, _, Or.inl rfl⟩
    | nil => exact follows.mono (by decide)
  have known : ∀ x ∈ '.' :: nameEnds, x ∈ openMarks := by decide
  obtain ⟨x, listed, meets⟩ := behind.meets known
  refine ⟨_, mem_typeLeads List.mem_cons_self listed, ?_⟩
  intro o
  rw [dottedChars, List.append_assoc]
  exact .cons (first.whole.shown o _) (.name first (behind.endsWord known)) (meets _)

theorem reads_returnType {ls : List Lead} {x : List Tree × Cursor} (listed : ls ∈ typeLeads)
    (meets : Meets ls c) (read : (rule .type).reads? e c = some x) : returnType.reads? e c = some x := by
  have checked : ∀ ls ∈ typeLeads, assertion.misfits ls = true ∧ typePredicate.misfits ls = true ∧
      (Form.absent (key "asserts")).idles ls = true := by decide +kernel
  obtain ⟨no_assertion, no_predicate, unasserted⟩ := checked ls listed
  exact (reads_right (reads?_of_misfits meets no_assertion)).trans
    ((reads_right (reads?_of_misfits meets no_predicate)).trans
      ((reads_behind (reads?_of_idles meets unasserted)).trans read))

def keyLeads : List Lead :=
  .name :: .string :: .number :: (keywords.filter (· != "abstract".toList)).map .word

def keyTails : List (List Lead) := [[.mark [':']], [.mark ['?'], .mark [':']]]

theorem PropertyKey.leads (key : PropertyKey) :
    ∃ l ∈ keyLeads, ∀ v, EndsWord v → v.head? ≠ some '.' → l.Shows key.chars v := by
  cases key with
  | word w whole apart =>
    by_cases keyword : w ∈ keywords
    · refine ⟨.word w, ?_, fun v ends _ => .word whole ends⟩
      simp only [keyLeads, List.mem_cons, List.mem_map, List.mem_filter]
      exact Or.inr (Or.inr (Or.inr ⟨w, ⟨keyword, by simpa using apart⟩, rfl⟩))
    · exact ⟨.name, List.mem_cons_self, fun v ends _ => .name ⟨w, whole, keyword⟩ ends⟩
  | string s => exact ⟨.string, by simp [keyLeads], fun v _ _ => .string s v⟩
  | number n starts =>
    exact ⟨.number, by simp [keyLeads], fun v ends no_point => .number n starts ends no_point⟩

theorem reads_key (key : PropertyKey) (before : Before c o (key.chars ++ v)) (ends : EndsWord v)
    (no_point : v.head? ≠ some '.') :
    ∃ k, (propertyNameBut ["abstract"]).reads? e c =
        some ([.leaf k ⟨o, o + key.chars.length⟩], ⟨o + key.chars.length, v⟩) ∧ k.isInner = true := by
  cases key with
  | word w whole apart =>
    have allowed : w ∉ words ["abstract"] := by simpa [words] using apart
    exact ⟨_, reads_left (reads_whole before whole ends allowed), rfl⟩
  | string s =>
    have leads : Meets [.string] c := .cons before (.string s v) (.nil _)
    exact ⟨_, (reads_right (reads?_of_misfits leads (by decide))).trans
      ((reads_right (reads?_of_misfits leads (by decide))).trans (reads_left (reads_string s before))), rfl⟩
  | number n starts =>
    have leads : Meets [.number] c := .cons before (.number n starts ends no_point) (.nil _)
    exact ⟨_, (reads_right (reads?_of_misfits leads (by decide))).trans
      ((reads_right (reads?_of_misfits leads (by decide))).trans
        ((reads_right (reads?_of_misfits leads (by decide))).trans
          (reads_left (reads_number n before ends no_point)))), rfl⟩

theorem reads_optional (optional : Bool) (stop : p = o + (if optional then ['?'] else []).length)
    (follows : Follows [':', '=', ',', ')'] v) :
    ∃ nodes, (Form.opt (sym "?")).reads? e ⟨o, (if optional then ['?'] else []) ++ v⟩ =
        some (nodes, ⟨p, v⟩) ∧ (∀ t ∈ nodes, t.field = none) ∧ nodes.flatMap (Tree.names S false) = [] := by
  obtain rfl := stop
  cases optional with
  | false =>
    have misfit : (sym "?").reads? e ⟨o, v⟩ = none := follows.misfit (by decide) (by decide)
    exact ⟨[], reads_opt_none misfit, by simp, rfl⟩
  | true =>
    have mark : Before ⟨o, '?' :: v⟩ o (['?'] ++ v) := .here (by decide) (by decide)
    refine ⟨_, reads_opt (reads_mark mark (by simp)), ?_, ?_⟩
    · intro t member
      obtain rfl := List.mem_singleton.1 member
      rfl
    · rw [List.flatMap_singleton, names_mark]

def memberForms : List F := [
  rule .callSignature, constructSignature, indexSignature,
  signatureModifiers ++ methodMark ++ memberNameBut [] ++ rule .callSignature,
  signatureModifiers ++ memberNameBut ["abstract"] ++ (rule .callSignature <|> Form.opt (rule .typing))]

/-- The word `readonly` before a key, if it is there. No member but a property begins so. -/
theorem reads_readonly (isReadonly : Bool) (k : PropertyKey) {ls : List Lead} (listed : ls ∈ keyTails)
    (before : Before c o (readonlyChars isReadonly ++ (k.chars ++ v)))
    (ends : EndsWord v) (no_point : v.head? ≠ some '.') (meets : ∀ p, Meets ls ⟨p, v⟩) :
    ∃ nodes d, signatureModifiers.reads? e c = some (nodes, d) ∧
      Before d (o + (readonlyChars isReadonly).length) (k.chars ++ v) ∧
      nodes.flatMap (Tree.names S false) = [] ∧ ∀ f ∈ memberForms.take 4, f.reads? e c = none := by
  obtain ⟨l, among, shown⟩ := k.leads
  have shows := shown v ends no_point
  cases isReadonly with
  | false =>
    rw [readonlyChars, if_neg Bool.false_ne_true, List.nil_append] at before
    have leads : Meets (l :: ls) c := .cons before shows (meets _)
    have checked : ∀ l ∈ keyLeads, ∀ ls ∈ keyTails, signatureModifiers.idles (l :: ls) = true ∧
        (memberForms.take 4).all (·.misfits (l :: ls)) = true := by decide +kernel
    obtain ⟨idle, misfits⟩ := checked l among ls listed
    exact ⟨[], c, reads?_of_idles leads idle, before, rfl, fun f member =>
      reads?_of_misfits leads (List.all_eq_true.1 misfits f member)⟩
  | true =>
    have whole : IsWhole "readonly".toList := isWhole_of_letters (by decide) (by decide)
    change Before c o ("readonly".toList ++ ' ' :: (k.chars ++ v)) at before
    have key_here : Before ⟨o + 8, ' ' :: (k.chars ++ v)⟩ (o + 9) (k.chars ++ v) :=
      shows.before.space
    have behind : Meets (l :: ls) ⟨o + 8, ' ' :: (k.chars ++ v)⟩ := .cons key_here shows (meets _)
    have leads : Meets (.word "readonly".toList :: l :: ls) c :=
      .cons before (.word whole endsWord_space) behind
    have checked : ∀ l ∈ keyLeads, ∀ ls ∈ keyTails,
        [accessibility, Form.opt (modifier "static"), Form.opt (modifier "override")].all
          (·.idles (.word "readonly".toList :: l :: ls)) = true ∧
        [Form.onward (Form.present memberStart), Form.opt (modifier "async") ++ .nothing].all
          (·.idles (l :: ls)) = true ∧
        (memberForms.take 4).all (·.misfits (.word "readonly".toList :: l :: ls)) = true := by
      decide +kernel
    obtain ⟨idle, idle_behind, misfits⟩ := checked l among ls listed
    have passed (f : F) (member : f ∈ [accessibility, Form.opt (modifier "static"),
        Form.opt (modifier "override")]) : f.reads? e c = some ([], c) :=
      reads?_of_idles leads (List.all_eq_true.1 idle f member)
    have stays (f : F) (member : f ∈ [Form.onward (Form.present memberStart),
        Form.opt (modifier "async") ++ .nothing]) : f.reads? e _ = some ([], _) :=
      reads?_of_idles behind (List.all_eq_true.1 idle_behind f member)
    have word : (key "readonly").reads? e c = _ := reads_word before whole endsWord_space
    have modified := reads_seq (reads_opt (reads_seq word (stays _ List.mem_cons_self)))
      (stays _ (List.mem_cons_of_mem _ (List.mem_singleton_self _)))
    refine ⟨_, _, (reads_behind (passed _ (by simp))).trans ((reads_behind (passed _ (by simp))).trans
      ((reads_behind (passed _ (by simp))).trans modified)), key_here, by simp, ?_⟩
    intro f member
    exact reads?_of_misfits leads (List.all_eq_true.1 misfits f member)

theorem keyTails_meets (optional : Bool) :
    EndsWord ((if optional then ['?'] else []) ++ ':' :: v) ∧
      ((if optional then ['?'] else []) ++ ':' :: v).head? ≠ some '.' ∧
      ∃ ls ∈ keyTails, ∀ p, Meets ls ⟨p, (if optional then ['?'] else []) ++ ':' :: v⟩ := by
  have colon (p : Nat) : Meets [.mark [':']] ⟨p, ':' :: v⟩ :=
    .cons (w := [':']) (.here (by decide) (by decide)) (.mark ⟨':', rfl, by decide⟩) (.nil _)
  have ends {x : Char} (known : x ∈ [':', '?']) (u : List Char) : EndsWord (x :: u) := by
    have checked : ∀ x ∈ [':', '?'], isNamePart x = false ∧ x ≠ '\\' := by decide
    intro y first
    obtain rfl := Option.some.inj first
    exact checked _ known
  cases optional with
  | false => exact ⟨ends (by decide) v, by simp, _, List.mem_cons_self, colon⟩
  | true =>
    refine ⟨ends (by decide) _, by simp, _, List.mem_cons_of_mem _ List.mem_cons_self, ?_⟩
    intro p
    exact .cons (w := ['?']) (.here (by decide) (by decide)) (.mark ⟨'?', rfl, by decide⟩) (colon _)

theorem reads_property (h : PropertyHead) (type : ReadsType ends S w ns)
    (shown : ∀ o v, Before ⟨o, w ++ v⟩ o (w ++ v)) :
    ReadsNode S (.within .declaration typeMember) e ends
      (fun t => Tree.names S false t = ns) (h.chars ++ [':', ' '] ++ w) := by
  intro c o p v stop on before ended
  obtain ⟨ends, no_point, ls, listed, meets⟩ := keyTails_meets (v := ' ' :: (w ++ v)) h.optional
  have text : h.chars ++ [':', ' '] ++ w ++ v = readonlyChars h.isReadonly ++
      (h.key.chars ++ ((if h.optional then ['?'] else []) ++ ':' :: ' ' :: (w ++ v))) := by
    simp [PropertyHead.chars]
  rw [text] at on before
  have on_type := drop_behind (drop_behind (drop_behind on))
  obtain ⟨modifiers, d, modified, key_here, modifierless, misfits⟩ :=
    reads_readonly (S := S) (e := .declaration) h.isReadonly h.key listed before.stays ends no_point meets
  obtain ⟨k, name, inner⟩ := reads_key (e := .declaration) h.key key_here ends no_point
  have colon : Follows [':', '=', ',', ')'] (':' :: ' ' :: (w ++ v)) := ⟨':', by decide, _, Or.inl rfl⟩
  obtain ⟨mark, optional, _, markless⟩ := reads_optional (S := S) (e := .declaration) h.optional rfl colon
  obtain ⟨cs, typing, names⟩ := reads_typing (e := .declaration) (p := p) type
    (by
      rw [stop]
      simp only [PropertyHead.chars, List.length_append, List.length_cons, List.length_nil]
      omega) on_type (shown _ _) ended
  have no_call (q : Nat) :
      (rule .callSignature : F).reads? .declaration ⟨q, ':' :: ' ' :: (w ++ v)⟩ = none :=
    colon.misfit (by decide) (by decide)
  have member : (signatureModifiers ++ memberNameBut ["abstract"] ++
      (rule .callSignature <|> Form.opt (rule .typing)) : F).reads? .declaration _ = _ :=
    reads_seq (reads_seq modified (reads_seq name optional)) ((reads_right (no_call _)).trans (reads_opt typing))
  have chosen : (Form.choice memberForms).reads? .declaration _ = _ := reads_choice (i := 4) rfl misfits member
  refine ⟨_, reads_node before chosen, ?_⟩
  show Tree.names S false _ = ns
  rw [names_inner _ rfl, List.flatMap_append, List.flatMap_append, List.flatMap_append, modifierless,
    markless, List.flatMap_singleton, List.flatMap_singleton, names_leaf _ inner, names_inner _ rfl, names]
  rfl

theorem names_listed {α : Type} {names : α → List String} {as : List α} {nodes ts : List Tree} {k : Kind}
    {x : Option Field} {s l r : Span} {m n : List Char} (declared : Bool) (inner : k.isInner = true)
    (named : List.Forall₂ (fun a t => Tree.names S false t = names a) as ts) (weaves : Weaves nodes ts) :
    Tree.names S declared (.node k x s ([.leaf (.symbol m) l] ++ nodes ++ [.leaf (.symbol n) r])) =
      as.flatMap names := by
  rw [names_inner declared inner, List.flatMap_append, List.flatMap_append,
    weaves.flatMap (fun m _ => names_mark false m), ← flatMap_eq_of_forall₂ (fun _ _ same => same.symm) named]
  simp

theorem reads_no_separator :
    (Form.opt memberSeparator).reads? e ⟨p, ' ' :: '\x7d' :: v⟩ = some ([], ⟨p, ' ' :: '\x7d' :: v⟩) := by
  have closes : Before ⟨p, ' ' :: '\x7d' :: v⟩ (p + 1) (['\x7d'] ++ v) :=
    .space (.here (by decide) (by decide))
  have meets : Meets [.mark ['\x7d']] ⟨p, ' ' :: '\x7d' :: v⟩ :=
    closes.meets (meets_mark (by decide) _ _)
  have no_comma := reads?_of_misfits (f := comma) (e := e) meets (by decide)
  have no_semicolon := reads?_of_misfits (f := sym ";") (e := e) meets (by decide)
  rw [Form.opt, reads?_alt, memberSeparator]
  rw [show (comma <|> semicolon .declaration : F).reads? e ⟨p, ' ' :: '\x7d' :: v⟩ = _ from
    (reads_right no_comma).trans (reads_right no_semicolon), reads?_ended]
  split <;> rfl

def memberMarks : List Char := [';', ',']

theorem reads_memberMark {x : Char} (known : x ∈ memberMarks) :
    memberSeparator.reads? e ⟨o, x :: v⟩ = some ([.leaf (.symbol [x]) ⟨o, o + 1⟩], ⟨o + 1, v⟩) := by
  simp only [memberMarks, List.mem_cons, List.not_mem_nil, or_false] at known
  rcases known with rfl | rfl
  · have here : Before ⟨o, ';' :: v⟩ o ([';'] ++ v) := .here (by decide) (by decide)
    have no_comma : comma.reads? e ⟨o, ';' :: v⟩ = none :=
      reads?_of_misfits (here.meets (meets_mark (by decide) _ _)) (by decide)
    exact (reads_right no_comma).trans (reads_left (reads_mark here (by simp)))
  · exact reads_left (reads_mark (u := [',']) (.here (by decide) (by decide)) (by simp))

theorem reads_members {α : Type} {chars : α → List Char} {names : α → List String} {a : α} {as : List α}
    {x : Char} {l : Lead} (ending : TypeEnds ends) (known : x ∈ memberMarks) (listed : l ∈ keyLeads)
    (members : ∀ b ∈ a :: as, ReadsNode S (.within .declaration typeMember) e ends
      (fun t => Tree.names S false t = names b) (chars b))
    (shown : ∀ b ∈ a :: as, ∀ o v, Before ⟨o, chars b ++ v⟩ o (chars b ++ v)) (closed : Bool)
    (stop : p = o + (setApart [x, ' '] ((a :: as).map chars) ++ if closed then [x] else []).length)
    (on : S.drop o = setApart [x, ' '] ((a :: as).map chars) ++
      ((if closed then [x] else []) ++ ' ' :: '\x7d' :: v))
    (before : Before c o (setApart [x, ' '] ((a :: as).map chars) ++
      ((if closed then [x] else []) ++ ' ' :: '\x7d' :: v))) (leads : Meets [l] c) :
    ∃ nodes, typeMembers.reads? e c = some (nodes, ⟨p, ' ' :: '\x7d' :: v⟩) ∧
      nodes.flatMap (Tree.names S false) = (a :: as).flatMap names := by
  set list := setApart [x, ' '] ((a :: as).map chars) with list_eq
  have brace (q : Nat) : Meets [.mark ['\x7d']] ⟨q, ' ' :: '\x7d' :: v⟩ :=
    .cons (.space (.here (by decide) (by decide))) (.mark ⟨'\x7d', rfl, by decide⟩) (.nil _)
  have no_member (q : Nat) :
      (Form.within .declaration typeMember : F).reads? e ⟨q, ' ' :: '\x7d' :: v⟩ = none :=
    reads?_of_misfits (brace q) (by decide)
  have checked : ∀ l ∈ keyLeads, (Form.opt (comma <|> sym ";") : F).idles [l] = true := by
    decide +kernel
  have lead := reads?_of_idles (e := e) leads (checked l listed)
  have opens (m : List Char) (s : Span) : Tree.names S false (.leaf (.symbol m) s) = [] := names_mark false m
  have between : ∀ u, ends (x :: u) := by
    have marks : ∀ x ∈ memberMarks, x ∈ closingMarks := by decide
    exact ending.mark x (marks x known)
  cases closed with
  | false =>
    simp only [Bool.false_eq_true, if_false, List.nil_append, List.append_nil] at stop on before ⊢
    have stops : (memberSeparator ++ .within .declaration typeMember : F).reads? e
        ⟨p, ' ' :: '\x7d' :: v⟩ = none := by
      have idle := reads_no_separator (e := e) (p := p) (v := v)
      rw [Form.opt, reads?_alt] at idle
      cases separator : memberSeparator.reads? e ⟨p, ' ' :: '\x7d' :: v⟩ with
      | none => exact reads_seq_left_none separator
      | some x =>
        rw [separator, Option.some_or] at idle
        rw [Option.some.inj idle] at separator
        exact reads_seq_none separator (no_member p)
    obtain ⟨nodes, ts, listed, named, weaves⟩ := reads_separated members shown
      (fun o v => reads_memberMark known) between (by decide) stop on before (ending.brace v) stops
    refine ⟨_, reads_opt (reads_seq ((reads_behind lead).trans listed) reads_no_separator), ?_⟩
    rw [List.append_nil, weaves.flatMap opens, ← flatMap_eq_of_forall₂ (fun _ _ same => same.symm) named]
  | true =>
    simp only [if_true, List.length_append, List.length_singleton, List.singleton_append] at stop on before ⊢
    have stops : (memberSeparator ++ .within .declaration typeMember : F).reads? e
        ⟨o + list.length, x :: ' ' :: '\x7d' :: v⟩ = none :=
      reads_seq_none (reads_memberMark known) (no_member _)
    obtain ⟨nodes, ts, listed, named, weaves⟩ := reads_separated members shown
      (fun o v => reads_memberMark known) between (by decide) rfl on before (between _) stops
    obtain rfl : p = o + list.length + 1 := by omega
    refine ⟨_, reads_opt (reads_seq ((reads_behind lead).trans listed)
      (reads_opt (reads_memberMark known))), ?_⟩
    rw [List.flatMap_append, weaves.flatMap opens, ← flatMap_eq_of_forall₂ (fun _ _ same => same.symm) named, List.flatMap_singleton,
      names_mark, List.append_nil]

theorem ReadsAsType.object {α : Type} {chars : α → List Char} {names : α → List String} {a : α}
    {as : List α} {x : Char} {l : Lead} (ending : TypeEnds ends) (known : x ∈ memberMarks)
    (listed : l ∈ keyLeads) (members : ∀ e, ∀ b ∈ a :: as,
      ReadsNode S (.within .declaration typeMember) e ends
        (fun t => Tree.names S false t = names b) (chars b))
    (shown : ∀ b ∈ a :: as, ∀ o v, Before ⟨o, chars b ++ v⟩ o (chars b ++ v))
    (named : ∀ o v, Meets [l] ⟨o, chars a ++ v⟩) (closed : Bool) :
    ReadsAsType ends' S (['\x7b', ' '] ++ setApart [x, ' '] ((a :: as).map chars) ++
      (if closed then [x] else []) ++ [' ', '\x7d']) ((a :: as).flatMap names) := by
  intro e c o p v stop on before _
  set list := setApart [x, ' '] ((a :: as).map chars) with list_eq
  set mark : List Char := if closed then [x] else [] with mark_eq
  have text : ['\x7b', ' '] ++ list ++ mark ++ [' ', '\x7d'] ++ v =
      '\x7b' :: ' ' :: (list ++ (mark ++ ' ' :: '\x7d' :: v)) := by simp
  rw [text] at on before
  have begins (o : Nat) (u : List Char) : Before ⟨o, list ++ u⟩ o (list ++ u) := by
    rw [list_eq, List.map_cons, setApart, List.append_assoc]
    exact shown a List.mem_cons_self _ _
  have leads (o : Nat) (u : List Char) : Meets [l] ⟨o, ' ' :: (list ++ u)⟩ := by
    have text : list ++ u = chars a ++ ((as.map chars).flatMap ([x, ' '] ++ ·) ++ u) := by
      rw [list_eq, List.map_cons, setApart, List.append_assoc]
    rw [text]
    exact (named _ _).space
  have here := before.stays
  have on_list : S.drop (o + 2) = list ++ (mark ++ ' ' :: '\x7d' :: v) :=
    drop_behind (w := ['\x7b', ' ']) on
  obtain ⟨nodes, body, names⟩ := reads_members ending known listed (members e) shown closed rfl on_list
    (begins _ _).space (leads (o + 1) _)
  set q := o + 2 + (list ++ mark).length with q_eq
  have closes : Before ⟨q, ' ' :: '\x7d' :: v⟩ (q + 1) (['\x7d'] ++ v) :=
    .space (.here (by decide) (by decide))
  have no_bar := reads?_of_misfits (f := sym "|\x7d") (e := e) (c := ⟨q, ' ' :: '\x7d' :: v⟩)
    (closes.meets (meets_mark (by decide) _ _)) (by decide)
  have braced (c : Cursor) (here : Before c o ('\x7b' :: ' ' :: (list ++ (mark ++ ' ' :: '\x7d' :: v)))) :
      Meets [.mark ['\x7b'], l] c :=
    .cons (w := ['\x7b']) here (.mark ⟨'\x7b', rfl, by decide⟩) (leads _ _)
  have checked : ∀ l ∈ keyLeads, (sym "\x7b|").misfits [.mark ['\x7b'], l] = true ∧
      (Form.many (bar <|> ampersand) : F).idles [.mark ['\x7b'], l] = true ∧
      (operandForms.take 14).all (·.misfits [.mark ['\x7b'], l]) = true := by decide +kernel
  obtain ⟨no_bar_mark, unmarked, misfits⟩ := checked l listed
  have no_open := reads?_of_misfits (e := e) (braced _ here) no_bar_mark
  have opening : (sym "\x7b|" <|> sym "\x7b" : F).reads? e _ = _ :=
    (reads_right no_open).trans (reads_mark (u := ['\x7b']) here (by simp))
  have closing : (sym "|\x7d" <|> sym "\x7d" : F).reads? e _ = _ :=
    (reads_right no_bar).trans (reads_mark closes (by simp))
  have object : (rule .objectType : F).reads? e c = _ :=
    reads_rule (reads_node before (reads_seq (reads_seq opening body) closing))
  have operand := reads_operand (i := 14) rfl (braced c before) unmarked misfits object
  obtain rfl : p = q + 2 := by
    rw [stop, q_eq]
    simp only [List.length_append, List.length_cons, List.length_nil]
    omega
  refine ⟨_, _, [], operand, .done _, ?_⟩
  rw [List.append_nil, List.flatMap_singleton, names_inner _ rfl]
  simp [names]

end Reading

theorem TypeText.shown (o : Nat) (v : List Char) (T : TypeText) :
    Before ⟨o, T.chars ++ v⟩ o (T.chars ++ v) := by
  obtain ⟨x, u, chars, part | rfl⟩ := T.begins
  · rw [chars]
    exact before_of_part part
  · rw [chars]
    exact .here (by decide) (by decide)

theorem MemberText.meets (o : Nat) (v : List Char) (m : MemberText) : Meets [.name] ⟨o, m.chars ++ v⟩ := by
  obtain ⟨key, type⟩ := m
  rw [chars, List.append_assoc, List.append_assoc]
  apply Meets.cons (key.shown o _) (.name key.name _) (.nil _)
  intro x first
  obtain rfl := Option.some.inj first
  decide

theorem MemberText.shown (o : Nat) (v : List Char) (m : MemberText) :
    Before ⟨o, m.chars ++ v⟩ o (m.chars ++ v) := by
  obtain ⟨key, type⟩ := m
  rw [chars, List.append_assoc, List.append_assoc]
  exact key.shown o _

def Identifier.head (i : Identifier) : PropertyHead where
  isReadonly := false
  key := .word i.chars i.isWhole fun same => i.not_keyword (by rw [same]; decide)
  optional := false

theorem Identifier.head_chars (i : Identifier) : i.head.chars = i.chars := List.append_nil i.chars

mutual

/-- A type is read back from its text, and its nodes refer to its names. -/
theorem TypeText.reads {S : List Char} : (T : TypeText) → ReadsAsType (Follows operandEnds) S T.chars T.names
  | .predefined word known =>
    have words : ∀ w ∈ predefinedTypes, w ∈ wordTypes := by decide
    .word operandEnds_follows (words word known)
  | .named first path [] => by
    rw [TypeText.chars, TypeText.names, List.isEmpty_nil, if_pos rfl, List.append_nil, pathChars_eq]
    exact .name operandEnds_follows first _
  | .named first path (a :: as) => by
    rw [TypeText.chars, TypeText.names, charsOfAll_eq, List.isEmpty_cons, if_neg Bool.false_ne_true,
      ← List.append_assoc, pathChars_eq]
    exact .applied first _ typeEnds_follows (TypeText.reads_all (a :: as)) (fun b _ o v => b.shown o v)
  | .array element => (TypeText.reads element).array operandEnds_follows
  | .union left right =>
    .union operandEnds_follows (TypeText.reads left) (TypeText.reads right) (fun o v => right.shown o v)
  | .intersection left right =>
    .intersection operandEnds_follows (TypeText.reads left) (TypeText.reads right)
      (fun o v => right.shown o v)
  | .object first others closed => by
    have members : ∀ e, ∀ m ∈ first :: others,
        ReadsNode S (.within .declaration Grammar.typeMember) e (Follows typeEnds)
          (fun t => Tree.names S false t = m.names) m.chars := by
      intro e m member
      rcases List.mem_cons.1 member with same | member
      · rw [same]
        exact MemberText.reads first
      · exact MemberText.reads_all others m member
    rw [TypeText.chars, charsOfMembers_eq, TypeText.names, namesOfMembers_eq, ← List.flatMap_cons,
      ← List.map_cons]
    exact .object typeEnds_follows (by decide) (l := .name) (by decide) members
      (fun m _ o v => m.shown o v) (fun o v => first.meets o v) closed

theorem MemberText.reads {S : List Char} {e : Ending} : (m : MemberText) →
    ReadsNode S (.within .declaration Grammar.typeMember) e (Follows typeEnds)
      (fun t => Tree.names S false t = m.names) m.chars
  | .mk key type => by
    rw [MemberText.chars, ← key.head_chars]
    exact reads_property key.head ((TypeText.reads type).type (fun _ follows => follows.mono (by decide))
      typeEnds_follows) (fun o v => type.shown o v)

theorem TypeText.reads_all {S : List Char} : (Ts : List TypeText) →
    ∀ T ∈ Ts, ReadsType (Follows typeEnds) S T.chars T.names
  | [] => by simp
  | T :: Ts => by
    intro U member
    rcases List.mem_cons.1 member with same | member
    · rw [same]
      exact (TypeText.reads T).type (fun _ follows => follows.mono (by decide)) typeEnds_follows
    · exact TypeText.reads_all Ts U member

theorem MemberText.reads_all {S : List Char} {e : Ending} : (ms : List MemberText) → ∀ m ∈ ms,
    ReadsNode S (.within .declaration Grammar.typeMember) e (Follows typeEnds)
      (fun t => Tree.names S false t = m.names) m.chars
  | [] => by simp
  | m :: ms => by
    intro n member
    rcases List.mem_cons.1 member with same | member
    · rw [same]
      exact MemberText.reads m
    · exact MemberText.reads_all ms n member

end

end SourceSpecs.Syntax
