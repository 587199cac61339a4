import SourceSpecs.Proofs.ParameterReading
import SourceSpecs.Proofs.Program
import SourceSpecs.Proofs.RoundTrip
/-!
Exported functions are read back from the headers they are written with, one after another.
-/
namespace SourceSpecs.Syntax

open Grammar

theorem TypeText.leads : (T : TypeText) → ∀ v, Follows operandEnds v →
    ∃ ls ∈ typeLeads, ∀ o, Meets ls ⟨o, T.chars ++ v⟩
  | .predefined word known, v, follows =>
    have words : ∀ w ∈ predefinedTypes, w ∈ wordTypes := by decide
    leads_word (words word known) follows
  | .named first path arguments, v, follows => by
    rw [chars, pathChars_eq, List.append_assoc]
    apply leads_named
    cases arguments with
    | cons a as => exact ⟨'<', by decide, _, Or.inl rfl⟩
    | nil => exact follows.mono (by decide)
  | .array element, v, follows => by
    rw [chars, List.append_assoc]
    exact element.leads _ ⟨'[', by decide, _, Or.inl rfl⟩
  | .union left right, v, follows => by
    rw [chars, List.append_assoc, List.append_assoc]
    exact left.leads _ ⟨'|', by decide, _, Or.inr rfl⟩
  | .intersection left right, v, follows => by
    rw [chars, List.append_assoc, List.append_assoc]
    exact left.leads _ ⟨'&', by decide, _, Or.inr rfl⟩
  | .object first others closed, v, follows => leads_mark (by decide) _

section Reading

variable {S v : List Char} {e : Ending} {c d : Cursor} {o p : Nat}

theorem reads_returnTyping (T : TypeText) (stop : p = o + (T.chars.length + 2))
    (on : S.drop o = ':' :: ' ' :: (T.chars ++ v)) (follows : Follows typeEnds v) :
    ∃ cs, (rule .returnTyping : F).reads? e ⟨o, ':' :: ' ' :: (T.chars ++ v)⟩ =
        some ([.node .typing none ⟨o, p⟩ cs], ⟨p, v⟩) ∧ cs.flatMap (Tree.names S false) = T.names := by
  have here : Before ⟨o, ':' :: ' ' :: (T.chars ++ v)⟩ o ([':'] ++ ' ' :: (T.chars ++ v)) :=
    .here (by decide) (by decide)
  have on_type : S.drop (o + 2) = T.chars ++ v := drop_behind (w := [':', ' ']) on
  have reads : ReadsType (Follows typeEnds) S T.chars T.names :=
    T.reads.type (fun _ follows => follows.mono (by decide)) typeEnds_follows
  obtain ⟨t, read, _, names⟩ := reads e ⟨o + 1, ' ' :: (T.chars ++ v)⟩ (o + 2) p v (by omega) on_type
    (T.shown _ _).space follows
  obtain ⟨ls, listed, meets⟩ := T.leads v (follows.mono (by decide))
  have type := reads_returnType listed (meets _).space read
  refine ⟨_, reads_rule (reads_node here (reads_seq (reads_mark here (by simp)) type)), ?_⟩
  rw [List.flatMap_append, List.flatMap_singleton, List.flatMap_singleton, names_mark, names,
    List.nil_append]

open ParameterText

theorem reads_returns (returns : Option TypeText) (stop : p = o + (typeChars returns).length)
    (on : S.drop o = typeChars returns ++ v) (follows : Follows ['\x7b'] v) :
    ∃ nodes, (Form.opt (.field .returnType (rule .returnTyping)) : F).reads? e
        ⟨o, typeChars returns ++ v⟩ = some (nodes, ⟨p, v⟩) ∧
      (nodes.find? fun t => t.field == some .returnType).elim "void" (Signature.typingText S) =
        returns.elim "void" (fun T => String.ofList T.chars) ∧
      nodes.flatMap (Tree.names S false) = returns.elim [] TypeText.names := by
  cases returns with
  | none =>
    obtain rfl := stop
    have misfit : (Form.field .returnType (rule .returnTyping) : F).reads? e ⟨p, v⟩ = none :=
      follows.misfit (by decide) (by decide)
    exact ⟨[], reads_opt_none misfit, rfl, rfl⟩
  | some T =>
    obtain ⟨cs, read, names⟩ := reads_returnTyping (e := e) (p := p) T
      (by rw [stop, typeChars, List.length_append]; simp only [List.length_cons, List.length_nil]; omega)
      on (follows.mono (by decide))
    have text : (Tree.node .typing (Option.some .returnType) ⟨o, p⟩ cs).text S =
        String.ofList ([':', ' '] ++ T.chars) := by
      rw [stop]
      exact text_node on
    refine ⟨_, reads_opt (reads_field (y := .returnType) read), typingText_of_text T text, ?_⟩
    rw [markLast, List.flatMap_singleton, names_as, names_inner _ rfl, names]
    rfl

theorem specOf_parts {params block : Tree} {returns : List Tree} {x : Option Field} {s l n : Span}
    {w : List Char} (bare : block.field = none) :
    Signature.specOf S (.node .function x s
        ([.leaf (.keyword w) l] ++ ([(Tree.leaf .identifier n).as .name] ++
          ([params.as .parameters] ++ returns)) ++ [block])) =
      { name := (Tree.leaf .identifier n).text S
        params := (params.childrenOf .parameter).map (Signature.paramOf S)
        returnType := (returns.find? fun t => t.field == some .returnType).elim "void"
          (Signature.typingText S)
        customTypes := Text.sortNames (((Tree.names S false params ++
          returns.flatMap (Tree.names S false)) ++ Tree.names S false block).filter
            (!isBuiltinType ·)) } := by
  obtain ⟨k, y, s', cs⟩ := params
  set function : Tree := .node .function x s ([.leaf (.keyword w) l] ++
    ([(Tree.leaf .identifier n).as .name] ++ ([(Tree.node k y s' cs).as .parameters] ++ returns)) ++ [block])
    with function_eq
  have name : function.child? .name = some ((Tree.leaf .identifier n).as .name) := rfl
  have params : function.child? .parameters = some ((Tree.node k y s' cs).as .parameters) := rfl
  have returned : function.child? .returnType = returns.find? fun t => t.field == some .returnType := by
    change (returns ++ [block]).find? _ = _
    rw [List.find?_append, List.find?_cons_of_neg (by simp [bare]), List.find?_nil, Option.or_none]
  have names : Tree.names S false function = Tree.names S false (.node k y s' cs) ++
      returns.flatMap (Tree.names S false) ++ Tree.names S false block := by
    rw [function_eq, names_inner _ rfl]
    simp only [List.flatMap_append, List.flatMap_singleton, names_keyword, names_as,
      names_leaf (k := .identifier) false rfl, List.nil_append]
  rw [Signature.specOf, Signature.paramsOf, name, params, returned, Tree.customTypes, names]
  rfl

theorem reads_emptyBlock :
    ∃ t, (rule .block : F).reads? e ⟨o, ' ' :: '\x7b' :: '\x7d' :: v⟩ = some ([t], ⟨o + 3, v⟩) ∧
      t.field = none ∧ Tree.names S false t = [] := by
  have opens : Before ⟨o + 1, '\x7b' :: '\x7d' :: v⟩ (o + 1) (['\x7b'] ++ '\x7d' :: v) :=
    .here (by decide) (by decide)
  have closes : Before ⟨o + 2, '\x7d' :: v⟩ (o + 2) (['\x7d'] ++ v) := .here (by decide) (by decide)
  have no_statement : (rule .statement : F).reads? e ⟨o + 2, '\x7d' :: v⟩ = none :=
    reads?_of_misfits (closes.meets (meets_mark (by decide) _ _)) (by decide)
  have statements := reads_many (f := rule .statement) (by decide) (.done _) no_statement
  refine ⟨_, reads_rule (reads_node opens.space (reads_seq (reads_seq (reads_mark opens (by simp)) statements)
    (reads_mark closes (by simp)))), rfl, ?_⟩
  rw [names_inner _ rfl]
  simp

theorem reads_functionName (i : Identifier) :
    (anyName .identifier : F).reads? e ⟨o, ' ' :: (i.chars ++ '(' :: v)⟩ =
      some ([.leaf .identifier ⟨o + 1, o + 1 + i.chars.length⟩], ⟨o + 1 + i.chars.length, '(' :: v⟩) := by
  apply reads_name i (i.shown _ _).space _ rfl
  intro x first
  obtain rfl := Option.some.inj first
  decide

theorem reads_functionWord (before : Before c o ("function".toList ++ ' ' :: v)) :
    asyncFunction.reads? e c =
      some ([.leaf (.keyword "function".toList) ⟨o, o + "function".toList.length⟩],
        ⟨o + "function".toList.length, ' ' :: v⟩) := by
  have whole : IsWhole "function".toList := isWhole_of_letters (by decide) (by decide)
  have unmarked := reads?_of_idles
    (f := Form.opt (key "async" ++ sameLine (Form.present (key "function")))) (e := e)
    (.cons before (.word whole endsWord_space) (.nil _)) (by decide)
  exact (reads_behind unmarked).trans (reads_word before whole endsWord_space)

theorem reads_callSignature (as : List ParameterText) (returns : Option TypeText)
    (stop : p = o + ((setApart [',', ' '] (as.map ParameterText.chars)).length + 2) +
      (typeChars returns).length)
    (on : S.drop o = '(' :: (setApart [',', ' '] (as.map ParameterText.chars) ++
      ')' :: (typeChars returns ++ v))) (follows : Follows ['\x7b'] v) :
    ∃ params nodes, (rule .callSignature : F).reads? e
        ⟨o, '(' :: (setApart [',', ' '] (as.map ParameterText.chars) ++ ')' :: (typeChars returns ++ v))⟩ =
          some ([params.as .parameters] ++ nodes, ⟨p, v⟩) ∧ IsParameterList S as params ∧
      (nodes.find? fun t => t.field == some .returnType).elim "void" (Signature.typingText S) =
        returns.elim "void" (fun T => String.ofList T.chars) ∧
      nodes.flatMap (Tree.names S false) = returns.elim [] TypeText.names := by
  set listed := setApart [',', ' '] (as.map ParameterText.chars) with listed_eq
  have text : '(' :: (listed ++ ')' :: (typeChars returns ++ v)) =
      ('(' :: (listed ++ [')'])) ++ (typeChars returns ++ v) := by simp
  have on_returns : S.drop (o + (listed.length + 2)) = typeChars returns ++ v := by
    rw [text] at on
    simpa using drop_behind on
  have not_generic : (rule .typeParameters : F).reads? e
      ⟨o, '(' :: (listed ++ ')' :: (typeChars returns ++ v))⟩ = none :=
    reads?_of_misfits (.cons (w := ['(']) (.here (by decide) (by decide))
      (.mark ⟨'(', rfl, by decide⟩) (.nil _)) (by decide)
  obtain ⟨params, list, goods⟩ := reads_parameters (e := e) as rfl on
  obtain ⟨nodes, returned, given, names⟩ := reads_returns (e := e) returns rfl on_returns follows
  rw [stop]
  refine ⟨params, nodes, ?_, goods, given, names⟩
  exact reads_rule (reads_seq ((reads_behind (reads_opt_none not_generic)).trans (reads_field list)) returned)

/-- A signature with an empty body is read as one function. -/
theorem reads_function (s : SignatureText) :
    ReadsNode S (rule .declaration) e (fun _ => True)
      (fun t => t.kind = .function ∧ Signature.specOf S t = s.spec) s.functionChars := by
  intro c o p v stop on before _
  rw [s.functionChars_append] at on before
  have on_name : S.drop (o + "function".toList.length + 1) = s.name.chars ++ '(' :: (s.paramsChars ++
      ')' :: (typeChars s.returns ++ ' ' :: '\x7b' :: '\x7d' :: v)) :=
    drop_behind (w := [' ']) (drop_behind on)
  obtain ⟨params, returns, call, goods, given, names⟩ := reads_callSignature (e := .signature) s.params
    s.returns rfl (drop_behind on_name) ⟨'\x7b', by decide, _, Or.inr rfl⟩
  obtain ⟨block, body, bare, nameless⟩ := reads_emptyBlock (S := S) (e := e) (v := v)
    (o := o + "function".toList.length + 1 + s.name.chars.length + (s.paramsChars.length + 2) +
      (typeChars s.returns).length)
  have whole : o + "function".toList.length + 1 + s.name.chars.length + (s.paramsChars.length + 2) +
      (typeChars s.returns).length + 3 = p := by
    rw [stop, s.functionChars_length]
    omega
  rw [whole] at body
  have head : signatureHead.reads? e ⟨o + "function".toList.length, _⟩ = _ :=
    reads_seq (reads_field (y := .name) (reads_functionName s.name)) call
  have parts := reads_seq (reads_seq (reads_functionWord before.stays) head) body
  refine ⟨_, reads_rule (reads_left (reads_left (reads_node before parts))), rfl, ?_⟩
  rw [markLast, specOf_parts bare, goods.params, given, goods.names, names, nameless, List.append_nil,
    Tree.leaf, text_node on_name]
  rfl

theorem specOf_as (x : Field) (t : Tree) : Signature.specOf S (t.as x) = Signature.specOf S t := by
  have custom : (t.as x).customTypes S = t.customTypes S := by
    rw [Tree.customTypes, Tree.customTypes, names_as]
  obtain ⟨k, y, s, cs⟩ := t
  rw [Signature.specOf, custom]
  rfl

structure Exports (S : List Char) (s : SignatureText) (t : Tree) : Prop where
  function : Signature.isFunction (Signature.exported t) = true
  spec : Signature.specOf S (Signature.exported t) = s.spec

theorem exports_of_declaration {t : Tree} {s : SignatureText} {x : Option Field} {l w : Span}
    {k : List Char} (function : t.kind = .function) (spec : Signature.specOf S t = s.spec) :
    Exports S s (.node .exportStatement x l ([.leaf (.keyword k) w] ++ [t.as .declaration])) := by
  have exported : Signature.exported (.node .exportStatement x l
      ([.leaf (.keyword k) w] ++ [t.as .declaration])) = t.as .declaration := by
    cases t
    rfl
  constructor
  · obtain ⟨k', y, s', cs⟩ := t
    obtain rfl : k' = .function := function
    rw [exported]
    rfl
  · rw [exported, specOf_as, spec]

theorem reads_export (s : SignatureText) :
    ReadsNode S exportStatement e (fun _ => True) (Exports S s) s.headerChars := by
  intro c o p v stop on before _
  change S.drop o = "export".toList ++ ' ' :: (s.functionChars ++ v) at on
  change Before c o ("export".toList ++ ' ' :: (s.functionChars ++ v)) at before
  have shown (q : Nat) : Before ⟨q, s.functionChars ++ v⟩ q (s.functionChars ++ v) := by
    rw [s.functionChars_append]
    exact .here (by decide) (by decide)
  have on_function : S.drop (o + "export".toList.length + 1) = s.functionChars ++ v :=
    drop_behind (w := [' ']) (drop_behind on)
  have length : s.headerChars.length = "export".toList.length + (s.functionChars.length + 1) := by
    change ("export".toList ++ ' ' :: s.functionChars).length = _
    rw [List.length_append, List.length_cons]
  obtain ⟨t, declaration, function, spec⟩ := reads_function (e := e) s
    ⟨o + "export".toList.length, ' ' :: (s.functionChars ++ v)⟩ _ p v
    (by rw [stop, length]; omega) on_function (shown _).space trivial
  have here := before.stays
  have whole : IsWhole "export".toList := isWhole_of_letters (by decide) (by decide)
  have undecorated := reads?_of_idles (f := Form.many (rule .decorator)) (e := e)
    (.cons here (.word whole endsWord_space) (.nil _)) (by decide)
  have goes_on : Ending.expression.endsAt ⟨o + "export".toList.length, ' ' :: (s.functionChars ++ v)⟩ = false := by
    apply (shown _).space.not_endsAt
    rw [s.functionChars_append]
    intro brace
    cases brace
  have opening : (sameLine .nothing).reads? e ⟨o + "export".toList.length, ' ' :: (s.functionChars ++ v)⟩ = _ :=
    reads_onward goes_on reads?_nothing
  have leads : Meets [.word "function".toList]
      ⟨o + "export".toList.length, ' ' :: (s.functionChars ++ v)⟩ := by
    have words : IsWhole "function".toList := isWhole_of_letters (by decide) (by decide)
    have := shown (o + "export".toList.length + 1)
    rw [s.functionChars_append] at this ⊢
    exact .cons this.space (.word words endsWord_space) (.nil _)
  refine ⟨_, reads_node before (reads_seq (reads_seq ((reads_behind undecorated).trans
    (reads_word here whole endsWord_space)) opening) (reads_choice_before (i := 3) rfl leads (by decide)
      (reads_field (y := .declaration) declaration))), ?_⟩
  exact exports_of_declaration function spec

theorem no_statement (quiet : Quiet true c) : (rule .statement : F).reads? .never c = none := by
  have answers : statementOf c.rest c ≠ .tooDeep := by
    apply readRule_answers (Nat.lt_succ_self _)
    have := Rule.statement.rank_lt
    unfold depthFor ruleCount at *
    omega
  have misfit : statementOf c.rest c = .misfit := by
    let s : Setting := ⟨[], c.rest, [], Or.inl rfl⟩
    rcases (s.statement_beyond quiet quiet).misfit with deep | ⟨no, _⟩
    · exact absurd deep answers
    · exact no
  apply reads?_eq_of_read
  exact (readRule_more (Nat.le_refl _) (Nat.sub_le (depthFor c.rest) 1) answers).trans misfit

theorem parse?_of_statement {t : Tree} (no_script : S.head? ≠ some '#')
    (read : (rule .statement : F).reads? .never (Cursor.ofText S) = some ([t], d))
    (gap : skipGap d = ([], ⟨p, []⟩)) : parse? S = some (.node .program none ⟨0, p⟩ [t]) := by
  have statements := reads_many (f := rule .statement) (by decide) (.single read)
    (no_statement ⟨_, gap, Or.inl rfl⟩)
  have no_interpreter : (Form.glued .interpreter : F).reads? .never (Cursor.ofText S) = none := by
    rw [reads?_glued, Token.read]
    cases S with
    | nil => rfl
    | cons x t =>
      have apart : x ≠ '#' := by simpa using no_script
      simp [Cursor.ofText, Token.length?, apart]
  have finish : (Form.finish : F).reads? .never d = some ([], ⟨p, []⟩) := by
    rw [reads?_finish, gap, if_pos rfl]
  have whole : program.reads? .never (Cursor.ofText S) = _ :=
    reads_seq ((reads_behind (reads_opt_none no_interpreter)).trans statements) finish
  rw [parse?_eq_reads?]
  change (program.reads? .never (Cursor.ofText S)).map _ = _
  rw [whole]
  rfl

theorem reads_statement (s : SignatureText) (stop : p = o + s.headerChars.length)
    (on : S.drop o = s.headerChars ++ v) (gap : skipGap c = ([], ⟨o, s.headerChars ++ v⟩)) :
    ∃ t, (rule .statement : F).reads? e c = some ([t], ⟨p, v⟩) ∧ Exports S s t := by
  have before : Before ⟨o, s.headerChars ++ v⟩ o (s.headerChars ++ v) := .here (by decide) (by decide)
  have same : skipGap c = skipGap ⟨o, s.headerChars ++ v⟩ := gap.trans before.skipGap.symm
  obtain ⟨t, read, exported⟩ := reads_export (e := e) s _ o p v stop on before trivial
  have leads : Meets [.word "export".toList] ⟨o, s.headerChars ++ v⟩ := by
    have word : IsWhole "export".toList := isWhole_of_letters (by decide) (by decide)
    change Before ⟨o, _⟩ o ("export".toList ++ ' ' :: (s.functionChars ++ v)) at before
    exact .cons before (.word word endsWord_space) (.nil _)
  have no_block : (rule .block : F).reads? e c = none := by
    rw [reads?_rule]
    exact (reads_node_behind same).trans (reads?_of_misfits leads (by decide))
  refine ⟨t, ?_, exported⟩
  apply reads_rule
  apply reads_choice (i := 1) rfl
  · intro g member
    obtain rfl := List.mem_singleton.1 member
    exact no_block
  · exact (reads_node_behind same).trans read

end Reading

def headersChars (signatures : List SignatureText) : List Char :=
  signatures.flatMap fun s => s.headerChars ++ ['\n']

theorem beyond_headersChars (signatures : List SignatureText) : Beyond false (headersChars signatures) := by
  cases signatures with
  | nil => exact Or.inl rfl
  | cons s signatures =>
    refine Or.inr ⟨rfl, ' ' :: s.functionChars ++ '\n' :: headersChars signatures, ?_⟩
    change "export".toList ++ ' ' :: s.functionChars ++ ['\n'] ++ headersChars signatures = _
    simp only [List.append_assoc, List.cons_append, List.nil_append]

theorem runs_statements {S : List Char} (signatures : List SignatureText) {c : Cursor} {o : Nat}
    (on : S.drop o = headersChars signatures) (gap : skipGap c = ([], ⟨o, headersChars signatures⟩)) :
    ∃ nodes d, Runs (rule .statement) .never c nodes d ∧ List.Forall₂ (Exports S) signatures nodes ∧
      ∃ q, skipGap d = ([], ⟨q, []⟩) := by
  induction signatures generalizing c o with
  | nil => exact ⟨[], c, .done c, .nil, o, gap⟩
  | cons s signatures ih =>
    have text : headersChars (s :: signatures) = s.headerChars ++ '\n' :: headersChars signatures := by
      rw [headersChars, List.flatMap_cons, List.append_assoc]
      rfl
    rw [text] at on gap
    obtain ⟨t, read, exported⟩ := reads_statement (e := .never) s rfl on gap
    obtain ⟨nodes, d, runs, goods, ended⟩ := ih (drop_behind (w := ['\n']) (drop_behind on))
      (skipGap_break (beyond_headersChars signatures))
    exact ⟨_, d, .round read runs, .cons exported goods, ended⟩

theorem functionsOf_exports {S : List Char} {signatures : List SignatureText} {nodes : List Tree}
    (goods : List.Forall₂ (Exports S) signatures nodes) :
    (((nodes.map Signature.exported).filter Signature.isFunction).map (Signature.specOf S)) =
      signatures.map SignatureText.spec := by
  induction goods with
  | nil => rfl
  | cons good _ ih =>
    rw [List.map_cons, List.filter_cons_of_pos good.function, List.map_cons, good.spec, ih, List.map_cons]

/-- The headers of signatures are well formed, and their functions are those that were written. -/
theorem functionSpecs_headersChars (signatures : List SignatureText) :
    functionSpecs (headersChars signatures) = .ok (signatures.map SignatureText.spec) := by
  set S := headersChars signatures with S_eq
  have beyond : Beyond false S := beyond_headersChars signatures
  obtain ⟨nodes, d, runs, goods, q, gap⟩ := runs_statements (S := S) (c := Cursor.ofText S) (o := 0)
    signatures rfl (skipGap_beyond beyond)
  have quiet : Quiet true d := ⟨_, gap, Or.inl rfl⟩
  have statements := reads_many (by decide) runs (no_statement quiet)
  have no_interpreter : (Form.glued .interpreter : F).reads? .never (Cursor.ofText S) = none := by
    rw [reads?_glued, Token.read]
    rcases beyond with nothing | ⟨_, t, text⟩
    · rw [Cursor.ofText, nothing]
      rfl
    · rw [Cursor.ofText, text]
      rfl
  have finish : (Form.finish : F).reads? .never d = some ([], ⟨q, []⟩) := by
    rw [reads?_finish, gap, if_pos rfl]
  have whole : program.reads? .never (Cursor.ofText S) = _ :=
    reads_seq ((reads_behind (reads_opt_none no_interpreter)).trans statements) finish
  have parsed : parse? S = some (.node .program none ⟨0, q⟩ nodes) := by
    rw [parse?_eq_reads?]
    change (program.reads? .never (Cursor.ofText S)).map _ = _
    rw [whole, List.append_nil]
    rfl
  rw [functionSpecs, parsed]
  exact congrArg Except.ok (functionsOf_exports goods)

namespace SignatureText

theorem text_eq_render (signatures : List SignatureText) :
    signatures.flatMap text = Block.render (signatures.flatMap blocks) := by
  rw [Block.render, List.flatMap_assoc]
  rfl

theorem formed (signatures : List SignatureText) : ∀ b ∈ signatures.flatMap blocks, b.WellFormed := by
  intro b member
  obtain ⟨s, _, inside⟩ := List.mem_flatMap.1 member
  exact s.formed_blocks b inside

theorem dedent_blocks (signatures : List SignatureText) :
    Text.dedent (Block.render (signatures.flatMap blocks)) = Block.render (signatures.flatMap blocks) := by
  cases signatures with
  | nil => decide
  | cons s signatures =>
    have header : s.header ∈ (s :: signatures).flatMap blocks :=
      List.mem_flatMap.2 ⟨s, List.mem_cons_self, List.mem_cons_self⟩
    exact Block.dedent_render header rfl

/-- Neither a header nor a filler line is a type or an import. -/
theorem only_functions (signatures : List SignatureText) :
    (signatures.flatMap blocks).filterMap Block.typeSpec? = [] ∧
      (signatures.flatMap blocks).filterMap Block.importSpec? = [] := by
  constructor
  · rw [List.filterMap_eq_nil_iff]
    intro b member
    obtain ⟨s, _, inside⟩ := List.mem_flatMap.1 member
    rcases List.mem_cons.1 inside with rfl | inside
    · rfl
    · obtain ⟨line, _, rfl⟩ := List.mem_map.1 inside
      rfl
  · rw [List.filterMap_eq_nil_iff]
    intro b member
    obtain ⟨s, _, inside⟩ := List.mem_flatMap.1 member
    rcases List.mem_cons.1 inside with rfl | inside
    · rfl
    · obtain ⟨line, _, rfl⟩ := List.mem_map.1 inside
      rfl

def sampleSignature : SignatureText where
  name := ⟨"load".toList, by decide⟩
  params :=
    [⟨false, ⟨"key".toList, by decide⟩, true,
        some (.union (.named ⟨"Key".toList, by decide⟩ [] []) (.predefined "null".toList (by decide))),
        none⟩,
      ⟨false, ⟨"limit".toList, by decide⟩, false, none,
        some (.number true ⟨['1'], by decide, by decide⟩)⟩,
      ⟨true, ⟨"more".toList, by decide⟩, false,
        some (.array (.named ⟨"Map".toList, by decide⟩ [] [.predefined "string".toList (by decide),
          .object (.mk ⟨"at".toList, by decide⟩ (.named ⟨"db".toList, by decide⟩
            [⟨"Row".toList, by decide⟩] [])) [] true])),
        none⟩]
  returns := some (.array (.named ⟨"Table".toList, by decide⟩ [] []))
  plain := by decide
  body := ["  return read(key);".toList, ['\x7d']]
  filler := by decide +kernel

example : String.ofList sampleSignature.text = "export function load(key?: Key | null, limit = -1, " ++
    "...more: Map<string, \x7b at: db.Row; \x7d>[]): Table[] \x7b\n  return read(key);\n\x7d\n" ∧
    sampleSignature.spec =
      ⟨"load", [⟨"key", some "Key | null", none⟩, ⟨"limit", none, some "-1"⟩,
        ⟨"more", some "Map<string, \x7b at: db.Row; \x7d>[]", none⟩], "Table[]",
        ["Key", "Map", "Table"]⟩ := by
  decide +kernel

end SignatureText

end SourceSpecs.Syntax
