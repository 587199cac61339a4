import SourceSpecs.Proofs.FunctionNames
import SourceSpecs.Proofs.SignatureReading
import SourceSpecs.Proofs.TypeExpressionReading
/-!
The declaration of a name for a type is read back from its text. Its custom types are the names that
its type refers to, and those that the types refer to that its parameters keep to and have by default.
Whether a type is a union or an intersection makes no difference to them.
-/
namespace SourceSpecs.Syntax

open Grammar

/-- The nodes refer to the names, and none of them is the name of a type by itself. -/
structure RefersTo (S : List Char) (ts : List Tree) (ns : List String) : Prop where
  apart : ∀ t ∈ ts, t.kind ≠ .typeName
  names : ts.flatMap (Tree.names S false) = ns

section Names

variable {S : List Char} {k : Kind} {x : Option Field} {s n : Span} {t : Tree} {ts us : List Tree}
  {ns ms : List String}

theorem RefersTo.nil : RefersTo S [] [] := ⟨by simp, rfl⟩

theorem RefersTo.single (apart : t.kind ≠ .typeName) (names : Tree.names S false t = ns) :
    RefersTo S [t] ns where
  apart := by simpa using apart
  names := by rw [List.flatMap_singleton, names]

theorem RefersTo.leaf (inner : k.isInner = true) : RefersTo S [.leaf k s] [] := by
  apply RefersTo.single _ (names_leaf false inner)
  rintro rfl
  cases inner

theorem RefersTo.append (h : RefersTo S ts ns) (k : RefersTo S us ms) : RefersTo S (ts ++ us) (ns ++ ms) where
  apart t member := (List.mem_append.1 member).elim (h.apart t) (k.apart t)
  names := by rw [List.flatMap_append, h.names, k.names]

theorem RefersTo.namesOfAll (declared : Option Tree) (h : RefersTo S ts ns) :
    Tree.namesOfAll S declared ts = ns := by
  rw [← h.names]
  have apart := h.apart
  clear h
  induction ts with
  | nil => rfl
  | cons t ts ih =>
    rw [Tree.namesOfAll, Tree.names_declared _ (apart t List.mem_cons_self),
      ih fun u member => apart u (List.mem_cons_of_mem t member), List.flatMap_cons]

theorem namesOfAll_append (declared : Option Tree) : Tree.namesOfAll S declared (ts ++ us) =
    Tree.namesOfAll S declared ts ++ Tree.namesOfAll S declared us := by
  induction ts with
  | nil => rfl
  | cons t ts ih => rw [List.cons_append, Tree.namesOfAll, Tree.namesOfAll, ih, List.append_assoc]

theorem names_declaring (front : List Tree) (declared : Bool) (declares : k.declaresType = true)
    (bare : ∀ t ∈ front, t.field = none) (silent : RefersTo S front []) (refers : RefersTo S ts ns) :
    Tree.names S declared (.node k x s (front ++ (Tree.leaf .typeName n).as .name :: ts)) = ns := by
  have not_generic : k ≠ .genericType := by
    rintro rfl
    cases declares
  have not_qualified : k ≠ .qualifiedName := by
    rintro rfl
    cases declares
  have none_own : Tree.ownNames S declared (.node k x s (front ++ (Tree.leaf .typeName n).as .name :: ts)) = [] := by
    unfold Tree.ownNames
    cases k <;> first | rfl | cases declares
  have name : (Tree.node k x s (front ++ (Tree.leaf .typeName n).as .name :: ts)).declaredName? =
      some ((Tree.leaf .typeName n).as .name) := by
    rw [Tree.declaredName?, Tree.kind, if_pos declares, Tree.child?, Tree.children, find?_field,
      List.find?_cons_of_pos rfl]
    intro t member
    simp [bare t member]
  have same : (some ((Tree.leaf .typeName n).as .name)).any
      (Tree.sameNode · ((Tree.leaf .typeName n).as .name)) = true := by
    simp [Tree.sameNode]
  have unnamed : Tree.names S true ((Tree.leaf .typeName n).as .name) = [] := rfl
  rw [names_other declared not_generic not_qualified, none_own, name, namesOfAll_append, Tree.namesOfAll, same,
    unnamed, silent.namesOfAll, refers.namesOfAll]
  rfl

end Names

section Parameters

variable {S v : List Char} {e : Ending} {c : Cursor} {o p : Nat}

def boundTails : List (List Char) := [[','], ['>'], ['=', ' ']]

def typeParameterTails : List (List Char) := [[','], ['>']]

theorem reads_markedType {f : F} {k : Kind} {s : Span} (inner : k.isInner = true) (T : TypeExpr)
    (mark : f.reads? e c = some ([.leaf k s], ⟨o, ' ' :: (T.chars ++ v)⟩))
    (stop : p = o + 1 + T.chars.length) (on : S.drop (o + 1) = T.chars ++ v) (followed : FollowedBy typeTails v) :
    ∃ nodes, (f ++ rule .type).reads? e c = some (nodes, ⟨p, v⟩) ∧ RefersTo S nodes T.names := by
  obtain ⟨t, read, kind, names⟩ := T.reads e ⟨o, ' ' :: (T.chars ++ v)⟩ (o + 1) p v stop on
    (T.shown _ _).space followed
  exact ⟨_, reads_seq mark read, (RefersTo.leaf inner).append (.single (by simp [kind]) names)⟩

theorem reads_bound (bound : Option TypeExpr) (stop : p = o + (boundChars bound).length)
    (on : S.drop o = boundChars bound ++ v) (followed : FollowedBy boundTails v) :
    ∃ nodes, (Form.opt constraint).reads? e ⟨o, boundChars bound ++ v⟩ = some (nodes, ⟨p, v⟩) ∧
      RefersTo S nodes (bound.elim [] TypeExpr.names) := by
  cases bound with
  | none =>
    obtain rfl := stop
    have follows : Follows [',', '>', '='] v := followed.follows (by decide)
    exact ⟨[], reads_opt_none (follows.misfit (by decide) (by decide)), .nil⟩
  | some T =>
    have whole : IsWhole "extends".toList := isWhole_of_letters (by decide) (by decide)
    have here : Before ⟨o, ' ' :: ("extends".toList ++ ' ' :: (T.chars ++ v))⟩ (o + 1)
        ("extends".toList ++ ' ' :: (T.chars ++ v)) := (whole.shown _ _).space
    have on_type : S.drop (o + 1 + "extends".toList.length + 1) = T.chars ++ v :=
      drop_behind (w := [' ']) (drop_behind (w := "extends".toList) (drop_behind (w := [' ']) on))
    have length : (boundChars (some T)).length = 1 + "extends".toList.length + 1 + T.chars.length := by
      change (' ' :: ("extends".toList ++ ' ' :: T.chars)).length = _
      rw [List.length_cons, List.length_append, List.length_cons]
      omega
    have word : (key "extends" <|> sym ":" : F).reads? e
        ⟨o, ' ' :: ("extends".toList ++ ' ' :: (T.chars ++ v))⟩ = _ :=
      reads_left (reads_word here whole endsWord_space)
    obtain ⟨nodes, read, refers⟩ := reads_markedType (p := p) rfl T word
      (by rw [stop, length]; omega) on_type (followed.mono (by decide))
    exact ⟨nodes, reads_opt read, refers⟩

theorem reads_defaultType (default : Option TypeExpr) (stop : p = o + (defaultTypeChars default).length)
    (on : S.drop o = defaultTypeChars default ++ v) (followed : FollowedBy typeParameterTails v) :
    ∃ nodes, (Form.opt (sym "=" ++ rule .type)).reads? e ⟨o, defaultTypeChars default ++ v⟩ =
        some (nodes, ⟨p, v⟩) ∧ RefersTo S nodes (default.elim [] TypeExpr.names) := by
  cases default with
  | none =>
    obtain rfl := stop
    have follows : Follows [',', '>'] v := followed.follows (by decide)
    exact ⟨[], reads_opt_none (follows.misfit (by decide) (by decide)), .nil⟩
  | some T =>
    have here : Before ⟨o, ' ' :: '=' :: ' ' :: (T.chars ++ v)⟩ (o + 1) (['='] ++ ' ' :: (T.chars ++ v)) :=
      .space (.here (by decide) (by decide))
    have on_type : S.drop (o + 3) = T.chars ++ v := drop_behind (w := [' ', '=', ' ']) on
    have mark : (sym "=").reads? e ⟨o, ' ' :: '=' :: ' ' :: (T.chars ++ v)⟩ = _ :=
      reads_mark (u := ['=']) here (by simp)
    obtain ⟨nodes, read, refers⟩ := reads_markedType (p := p) rfl T mark
      (by
        rw [stop, defaultTypeChars, List.length_append]
        simp only [List.length_cons, List.length_nil]
        omega) on_type (followed.mono (by decide))
    exact ⟨nodes, reads_opt read, refers⟩

theorem followedBy_default (default : Option TypeExpr) (followed : FollowedBy typeParameterTails v) :
    FollowedBy boundTails (defaultTypeChars default ++ v) := by
  cases default with
  | none => exact followed.mono (by decide)
  | some T => exact ⟨['=', ' '], by decide, _, Or.inr rfl⟩

theorem endsWord_bound (bound : Option TypeExpr) (followed : FollowedBy boundTails v) :
    EndsWord (boundChars bound ++ v) := by
  cases bound with
  | none =>
    have follows : Follows [',', '>', '='] v := followed.follows (by decide)
    exact follows.endsWord (by decide)
  | some T => exact endsWord_space

theorem reads_typeParameter (q : TypeParameterText) :
    ReadsNode S typeParameter e (FollowedBy typeParameterTails)
      (fun t => Tree.names S false t = q.names) q.chars := by
  intro c o p v stop on before followed
  have text : q.chars ++ v = q.name.chars ++ (boundChars q.bound ++ (defaultTypeChars q.default ++ v)) := by
    rw [TypeParameterText.chars, List.append_assoc, List.append_assoc]
  rw [text] at on before
  have followed_bound := followedBy_default q.default followed
  have ends := endsWord_bound q.bound followed_bound
  have here := before.stays
  have constless := reads?_of_idles (f := Form.opt (key "const")) (e := e)
    (here.meets ((Lead.Shows.name q.name ends).meets o)) (by decide)
  have on_bound := drop_behind on
  obtain ⟨bound, read_bound, refers_bound⟩ := reads_bound (e := e) q.bound rfl on_bound followed_bound
  obtain ⟨default, read_default, refers_default⟩ := reads_defaultType (e := e) (p := p) q.default
    (by rw [stop, TypeParameterText.chars, List.length_append, List.length_append]; omega)
    (drop_behind on_bound) followed
  have name : (nameBut .typeName ["const"]).reads? e _ = _ := reads_name q.name here ends (by decide)
  have body := reads_seq (reads_seq ((reads_behind constless).trans (reads_field (y := .name) name)) read_bound)
    read_default
  rw [List.append_assoc] at body
  exact ⟨_, reads_node before body, names_declaring [] false rfl (by simp) .nil
    (refers_bound.append refers_default)⟩

theorem reads_typeParameters (qs : List TypeParameterText)
    (stop : p = o + (argumentChars (qs.map TypeParameterText.chars)).length)
    (on : S.drop o = argumentChars (qs.map TypeParameterText.chars) ++ v) (follows : Follows ['='] v) :
    ∃ nodes, (Form.opt (rule .typeParameters)).reads? e
        ⟨o, argumentChars (qs.map TypeParameterText.chars) ++ v⟩ = some (nodes, ⟨p, v⟩) ∧
      RefersTo S nodes (qs.flatMap TypeParameterText.names) := by
  cases qs with
  | nil =>
    obtain rfl := stop
    exact ⟨[], reads_opt_none (follows.misfit (by decide) (by decide)), .nil⟩
  | cons q qs =>
    have shown : ∀ b ∈ q :: qs, ∀ o v, Before ⟨o, b.chars ++ v⟩ o (b.chars ++ v) := by
      intro b _ o v
      rw [TypeParameterText.chars, List.append_assoc, List.append_assoc]
      exact b.name.whole.shown o _
    have text : argumentChars ((q :: qs).map TypeParameterText.chars) ++ v =
        '<' :: (setApart [',', ' '] ((q :: qs).map TypeParameterText.chars) ++ '>' :: v) := by
      simp [argumentChars]
    rw [text] at on ⊢
    have opens : Before ⟨o, '<' :: (setApart [',', ' '] ((q :: qs).map TypeParameterText.chars) ++ '>' :: v)⟩ o
        ('<' :: (setApart [',', ' '] ((q :: qs).map TypeParameterText.chars) ++ '>' :: v)) :=
      .here (by decide) (by decide)
    obtain ⟨nodes, ts, list, named, weaves⟩ := reads_commaList
      (fun b (_ : b ∈ q :: qs) => reads_typeParameter (e := .never) b) shown
      (fun v => ⟨[','], by decide, v, Or.inl rfl⟩) ⟨['>'], by decide, v, Or.inl rfl⟩ (by decide) (by decide)
      (by decide) rfl (drop_behind (w := ['<']) on)
    obtain ⟨l, r, whole⟩ := reads_enclosed (p := p) (e := e) (by decide)
      (by rw [stop]; simp [argumentChars]) opens list
    exact ⟨_, reads_opt (reads_rule (reads_node opens whole)),
      .single (by simp [Tree.kind]) (names_listed false rfl named weaves)⟩

end Parameters

namespace AliasText

variable (a : AliasText)

def argumentText : List Char := argumentChars (a.parameters.map TypeParameterText.chars)

def typeText (v : List Char) : List Char := ' ' :: '=' :: ' ' :: (a.type.chars ++ ';' :: v)

theorem chars_append (v : List Char) : a.chars ++ v =
    "type".toList ++ ' ' :: (a.name.chars ++ (a.argumentText ++ a.typeText v)) := by
  have shape (w n r t : List Char) : w ++ ' ' :: (n ++ r ++ [' ', '=', ' '] ++ t ++ [';']) ++ v =
      w ++ ' ' :: (n ++ (r ++ ' ' :: '=' :: ' ' :: (t ++ ';' :: v))) := by simp
  exact shape "type".toList a.name.chars a.argumentText a.type.chars

theorem endsWord_argumentText (v : List Char) : EndsWord (a.argumentText ++ a.typeText v) := by
  rw [argumentText, argumentChars]
  split
  · exact endsWord_space
  · intro x first
    obtain rfl := Option.some.inj first
    decide

theorem meets_name (o : Nat) (v : List Char) :
    Meets [.name] ⟨o, ' ' :: (a.name.chars ++ (a.argumentText ++ a.typeText v))⟩ :=
  ((Lead.Shows.name a.name (a.endsWord_argumentText v)).meets (o + 1)).space

theorem leads {c : Cursor} {o : Nat} {v : List Char} (before : Before c o (a.chars ++ v)) :
    Meets [.word "type".toList, .name] c := by
  rw [a.chars_append] at before
  exact .cons before (.word (isWhole_of_letters (by decide) (by decide)) endsWord_space) (a.meets_name _ v)

/-- A declaration is read as one node, which refers to its names. -/
theorem reads_declaration {S : List Char} {e : Ending} :
    ReadsNode S (rule .declaration) e (fun _ => True) (fun t => Tree.names S false t = a.names) a.chars := by
  intro c o p v stop on before _
  have leads := a.leads before
  rw [a.chars_append] at on before
  have whole : IsWhole "type".toList := isWhole_of_letters (by decide) (by decide)
  have here := before.stays
  have ends := a.endsWord_argumentText v
  have word : (key "type").reads? e _ = _ := reads_word here whole endsWord_space
  have name : (anyName .typeName).reads? .expression ⟨o + 4, ' ' :: (a.name.chars ++ (a.argumentText ++ a.typeText v))⟩ = _ :=
    reads_name a.name (a.name.whole.shown (o + 5) _).space ends (by decide)
  have named : (sameLine (.field .name (anyName .typeName))).reads? e
      ⟨o + 4, ' ' :: (a.name.chars ++ (a.argumentText ++ a.typeText v))⟩ = _ :=
    reads_onward (not_endsAt_of_meets (a.meets_name _ v) rfl .expression) (reads_field (y := .name) name)
  have on_name : S.drop (o + 5) = a.name.chars ++ (a.argumentText ++ a.typeText v) := by
    change S.drop o = ['t', 'y', 'p', 'e', ' '] ++ (a.name.chars ++ (a.argumentText ++ a.typeText v)) at on
    exact drop_behind on
  obtain ⟨parameters, arguments, refers⟩ :=
    reads_typeParameters (e := e) a.parameters rfl (drop_behind on_name) ⟨'=', by decide, _, Or.inr rfl⟩
  set q := o + 5 + a.name.chars.length + a.argumentText.length with q_eq
  have on_type : S.drop (q + 3) = a.type.chars ++ ';' :: v :=
    drop_behind (w := [' ', '=', ' ']) (drop_behind (drop_behind on_name))
  have equals : Before ⟨q, a.typeText v⟩ (q + 1) (['='] ++ ' ' :: (a.type.chars ++ ';' :: v)) :=
    .space (.here (by decide) (by decide))
  obtain ⟨t, read, kind, names⟩ := a.type.reads .declaration ⟨q + 2, ' ' :: (a.type.chars ++ ';' :: v)⟩ (q + 3)
    _ _ rfl on_type (a.type.shown _ _).space ⟨[';'], by decide, v, Or.inl rfl⟩
  have closing : (semicolon .declaration).reads? e ⟨q + 3 + a.type.chars.length, ';' :: v⟩ = _ :=
    reads_left (reads_mark (u := [';']) (.here (by decide) (by decide)) (by simp))
  have mark : (sym "=").reads? e ⟨q, a.typeText v⟩ = _ := reads_mark (u := ['=']) equals (by simp)
  have parts := reads_seq (reads_seq (reads_seq (reads_seq (reads_seq word named) arguments) mark)
    (g := .within .declaration (rule .type)) read) closing
  have length : q + 3 + a.type.chars.length + [';'].length = p := by
    have length := congrArg List.length (a.chars_append [])
    simp only [typeText, List.length_append, List.length_cons, List.length_nil,
      show "type".toList.length = 4 from rfl] at length ⊢
    omega
  rw [length] at parts
  simp only [markLast, List.append_assoc] at parts
  have refers_type : RefersTo S [t] a.type.names := .single (by simp [kind]) names
  refine ⟨_, reads_rule (reads_choice_before (i := 4) rfl leads (by decide) (reads_node before parts)), ?_⟩
  refine Eq.trans (names_declaring [.leaf (.keyword _) _] false rfl ?_ (.leaf rfl)
    (refers.append (RefersTo.append (.leaf rfl) (refers_type.append (.leaf rfl))))) ?_
  · simp [Tree.leaf, Tree.field]
  · simp [AliasText.names]

theorem no_script : a.chars.head? ≠ some '#' := by
  change some 't' ≠ some '#'
  decide

theorem dedent_chars : Text.dedent a.chars = a.chars :=
  Text.dedent_eq_self (u := []) (x := 't') rfl (Or.inl rfl) (by decide)

theorem parse?_dedent : ∃ tree, parse? (Text.dedent (String.ofList a.chars).toList) = some tree ∧
    tree.names (Text.dedent (String.ofList a.chars).toList) false = a.names := by
  rw [String.toList_ofList, a.dedent_chars]
  have before : Before (Cursor.ofText a.chars) 0 (a.chars ++ []) := by
    rw [List.append_nil]
    exact .here (by decide) (by decide)
  obtain ⟨t, read, names⟩ := a.reads_declaration (S := a.chars) (e := .never) _ _ _ [] rfl (List.append_nil _).symm before trivial
  have statement := reads_rule (r := .statement) (reads_choice_before (i := 3) rfl (a.leads before)
    (by decide) read)
  have gap : skipGap ⟨0 + a.chars.length, []⟩ = ([], ⟨0 + a.chars.length, []⟩) := rfl
  refine ⟨_, parse?_of_statement a.no_script statement gap, ?_⟩
  rw [names_inner _ rfl, List.flatMap_singleton, names]

/-- The custom types of a declaration are the names that it refers to, in ascending order, without
    those that are built in. Whether a type in it is a union or an intersection makes no difference. -/
theorem custom_types_of_declaration : Text.Ascending (collectTypes (String.ofList a.chars)) ∧
    (∀ n, n ∈ collectTypes (String.ofList a.chars) ↔ n ∉ builtinTypes ∧ n ∈ a.names) ∧
    ∀ b : AliasText, b.asUnions = a.asUnions →
      collectTypes (String.ofList b.chars) = collectTypes (String.ofList a.chars) := by
  have ascending (a : AliasText) : Text.Ascending (collectTypes (String.ofList a.chars)) := by
    obtain ⟨tree, parsed, _⟩ := a.parse?_dedent
    exact Tree.ascending_collectTypes parsed
  have members (a : AliasText) (n : String) :
      n ∈ collectTypes (String.ofList a.chars) ↔ n ∉ builtinTypes ∧ n ∈ a.names := by
    obtain ⟨tree, parsed, names⟩ := a.parse?_dedent
    rw [Tree.collectTypes_of_parse? parsed, Tree.mem_customTypes_iff_names, names, and_comm]
  refine ⟨ascending a, members a, ?_⟩
  intro b same
  apply (ascending b).eq_of_mem_iff (ascending a)
  intro n
  rw [members, members, ← b.names_asUnions, same, a.names_asUnions]

end AliasText

def letterName (w : List Char) (nonempty : w ≠ []) (letters : w.all isIdentifierStart = true)
    (free : w ∉ keywords) : Name := ⟨w, isWhole_of_letters nonempty letters, free⟩

def plainType (n : Name) : TypeExpr := .joined (.named n [] []) []

def samplePair (c : Connective) : AliasText :=
  let key := letterName "K".toList (by decide) (by decide) (by decide)
  let box := letterName "Box".toList (by decide) (by decide) (by decide)
  let row := letterName "Row".toList (by decide) (by decide) (by decide)
  { name := letterName "Pair".toList (by decide) (by decide) (by decide)
    parameters := [⟨key, some (plainType row), none⟩]
    type := .joined (.array (.parenthesized (.function
      [(⟨false, letterName "x".toList (by decide) (by decide) (by decide), true⟩, plainType key)]
      (plainType box))))
      [(c, .named row [box] [plainType box])] }

theorem custom_types_of_pair : (samplePair .intersection).asUnions = (samplePair .union).asUnions ∧
    collectTypes (String.ofList (samplePair .intersection).chars) =
      collectTypes (String.ofList (samplePair .union).chars) :=
  ⟨rfl, (samplePair .union).custom_types_of_declaration.2.2 (samplePair .intersection) rfl⟩

example : String.ofList (samplePair .union).chars =
    "type Pair<K extends Row> = ((x?: K) => Box)[] | Row.Box<Box>;" ∧
    collectTypes (String.ofList (samplePair .union).chars) = ["Box", "K", "Row", "Row.Box"] := by
  decide +kernel

end SourceSpecs.Syntax
