import SourceSpecs.Proofs.FunctionNames
import SourceSpecs.Proofs.ImportText
import SourceSpecs.Proofs.SignatureReading
import SourceSpecs.Proofs.TypeArguments
/-!
An import by name is read back from its text: every binding with its mark, its name and its new name.
Its custom types are the local names of the bindings that are marked as types, one by one or all at
once.
-/
namespace SourceSpecs.Syntax

open Grammar

section Gap

variable {c d : Cursor} {o : Nat} {g t : List Char} {e : Ending} {k : Token}

theorem skipGap_blanks (blank : ∀ x ∈ g, isSpace x = true)
    (shown : Before ⟨o + g.length, t⟩ (o + g.length) t) :
    skipGap ⟨o, g ++ t⟩ = ([], ⟨o + g.length, t⟩) := by
  induction g generalizing o with
  | nil => exact shown.skipGap
  | cons x g ih =>
    have space := blank x List.mem_cons_self
    have no_slash : x ≠ '/' := by
      rintro rfl
      exact absurd space (by decide)
    have offset : o + (x :: g).length = o + 1 + g.length := by
      rw [List.length_cons]
      omega
    rw [offset] at shown ⊢
    have further := ih (fun y member => blank y (List.mem_cons_of_mem x member)) shown
    rw [skipGap] at further ⊢
    rwa [List.cons_append, gap_other no_slash, if_pos space]

theorem reads_token_behind (gap : skipGap c = skipGap d) :
    (Form.token k : F).reads? e c = (Form.token k : F).reads? e d := by
  rw [reads?_token, reads?_token, gap]

end Gap

/-- Blanks, and then a mark that ends a binding. -/
def EndsSpecifier (v : List Char) : Prop :=
  ∃ g x t, v = g ++ x :: t ∧ (∀ y ∈ g, isSpace y = true) ∧ (x = ',' ∨ x = '\x7d')

section Specifier

variable {S v : List Char} {e : Ending} {c : Cursor} {o p : Nat}

theorem EndsSpecifier.endsWord (h : EndsSpecifier v) : EndsWord v := by
  obtain ⟨g, x, t, rfl, blank, mark⟩ := h
  intro y first
  cases g with
  | nil =>
    obtain rfl := Option.some.inj first
    rcases mark with rfl | rfl <;> decide
  | cons z g =>
    obtain rfl := Option.some.inj first
    have space := blank z List.mem_cons_self
    refine ⟨by simp [isNamePart, space], ?_⟩
    rintro rfl
    exact absurd space (by decide)

theorem EndsSpecifier.no_key (h : EndsSpecifier v) (w : String)
    (misfits : [',', '\x7d'].all (fun x => (key w).misfits [.mark [x]]) = true) :
    (key w).reads? e ⟨o, v⟩ = none := by
  obtain ⟨g, x, t, rfl, blank, mark⟩ := h
  have known : x ∈ [',', '\x7d'] ∧ x ∈ openMarks := by
    rcases mark with rfl | rfl <;> decide
  have shows : (Lead.mark [x]).Shows [x] t := .mark ⟨x, rfl, known.2⟩
  have shown : Before ⟨o + g.length, x :: t⟩ (o + g.length) (x :: t) := shows.before
  have gap := (skipGap_blanks blank shown).trans shown.skipGap.symm
  rw [key, token, reads_token_behind gap]
  exact reads?_of_misfits (.cons shown shows (.nil _)) (List.all_eq_true.1 misfits x known.1)

theorem BindingName.shown (n : BindingName) (o : Nat) (v : List Char) :
    Before ⟨o, n.chars ++ v⟩ o (n.chars ++ v) := n.whole.shown o v

theorem BindingName.ne (n : BindingName) {w : List Char}
    (special : w ∈ Grammar.words ["type", "as", "typeof", "default"]) : n.chars ≠ w := by
  rintro rfl
  exact n.free special

theorem reads_bindingName (n : BindingName) {except : List (List Char)}
    (before : Before c o (n.chars ++ v)) (ends : EndsWord v)
    (known : ∀ w ∈ except, w ∈ Grammar.words ["type", "as", "typeof", "default"]) :
    (Form.token (.name .identifier except) : F).reads? e c =
      some ([.leaf .identifier ⟨o, o + n.chars.length⟩], ⟨o + n.chars.length, v⟩) := by
  apply reads_token before
  rw [Token.length?, nameLength?_whole n.whole ends]
  simp only
  rw [List.take_left, if_neg]
  intro excepted
  exact n.free (known _ (List.contains_iff_mem.1 excepted))

theorem no_special (n : BindingName) {k : Kind} {w : List Char} (before : Before c o (n.chars ++ v))
    (ends : EndsWord v) (special : w ∈ Grammar.words ["type", "as", "typeof", "default"]) :
    (Form.token (.word k w) : F).reads? e c = none := by
  apply reads_token_none before
  rw [wordLength_whole _ (nameLength?_whole n.whole ends), if_neg (n.ne special).symm]

theorem no_string (n : BindingName) (before : Before c o (n.chars ++ v)) :
    (Form.token .string : F).reads? e c = none := by
  apply reads_token_none before
  obtain ⟨x, first, start⟩ := n.whole.head
  obtain ⟨u, chars⟩ := List.head?_eq_some_iff.1 first
  have no_quote : x ≠ '\'' ∧ x ≠ '"' := by
    constructor <;> rintro rfl <;> exact absurd start (by decide)
  rw [chars, Token.length?_string, List.cons_append, stringLength?]
  simp [no_quote]

def asNodes (o : Nat) : Option BindingName → List Tree
  | some name => [.leaf (.keyword "as".toList) ⟨o + 1, o + 3⟩,
      (Tree.leaf .identifier ⟨o + 4, o + 4 + name.chars.length⟩).as .alias]
  | none => []

theorem Specifier.endsWord_name (s : Specifier) (ends : EndsSpecifier v) : EndsWord (s.asChars ++ v) := by
  unfold Specifier.asChars
  split
  · exact endsWord_space
  · exact ends.endsWord

theorem reads_specifierName (s : Specifier) (ws : List String)
    (known : ∀ w ∈ words ws, w ∈ words ["type", "as", "typeof", "default"])
    (before : Before c o (s.name.chars ++ (s.asChars ++ v))) (ends : EndsSpecifier v) :
    (importSpecifier.specifierName ws).reads? e c =
      some ((Tree.leaf .identifier ⟨o, o + s.name.chars.length⟩).as .name ::
          asNodes (o + s.name.chars.length) s.newName,
        ⟨o + s.name.chars.length + s.asChars.length, v⟩) := by
  have ends_name := s.endsWord_name ends
  have no_other : ((token .string <|> .field .name
      (token (.word .identifier "default".toList)) : F)).reads? e c = none := by
    refine (reads_right (no_string s.name before)).trans ?_
    rw [reads?_field, token, no_special s.name before ends_name (by decide)]
    rfl
  have name := reads_field (y := .name) (reads_bindingName (e := e) s.name before ends_name known)
  have left : ((token .string <|> .field .name (token (.word .identifier "default".toList)) : F) ++
      importSpecifier.newName).reads? e c = none := reads_seq_left_none no_other
  refine (reads_right left).trans ?_
  have renamed : (Form.opt importSpecifier.newName).reads? e
      ⟨o + s.name.chars.length, s.asChars ++ v⟩ = some (asNodes (o + s.name.chars.length) s.newName,
        ⟨o + s.name.chars.length + s.asChars.length, v⟩) := by
    unfold Specifier.asChars
    cases s.newName with
    | none =>
      exact reads_opt_none (reads_seq_left_none (ends.no_key "as" (by decide)))
    | some a =>
      have as_here : Before ⟨o + s.name.chars.length, " as ".toList ++ a.chars ++ v⟩
          (o + s.name.chars.length + 1) ("as".toList ++ ' ' :: (a.chars ++ v)) :=
        .space (.here (by decide) (by decide))
      have word := reads_word (k := .keyword "as".toList) (e := e) as_here
        (isWhole_of_letters (by decide) (by decide)) endsWord_space
      have name := reads_field (y := .alias) (reads_bindingName (e := e) a
        (a.shown (o + s.name.chars.length + 4) v).space ends.endsWord (List.forall_mem_nil _))
      have length : (" as ".toList ++ a.chars).length = 4 + a.chars.length := List.length_append
      rw [length, ← Nat.add_assoc]
      exact reads_opt (reads_seq word name)
  exact reads_seq name renamed

/-- A node of the tree is the binding. -/
structure IsBinding (S : List Char) (s : Specifier) (t : Tree) : Prop where
  kind : t.kind = .importSpecifier
  mark : t.hasKeyword "type" = s.typed
  named : t.localName S = [String.ofList s.localName.chars]
  names : t.names S false = []

theorem drop_asChars {s : Specifier} {a : BindingName} (renamed : s.newName = some a)
    (on : S.drop o = s.asChars ++ v) : S.drop (o + 4) = a.chars ++ v := by
  rw [Specifier.asChars, renamed, List.append_assoc] at on
  exact drop_behind (w := " as ".toList) on

theorem isBinding_of_parts {s : Specifier} {l m : Span}
    (on : S.drop o = s.name.chars ++ (s.asChars ++ v)) :
    IsBinding S s (.node .importSpecifier none l
      ((if s.typed then [.leaf (.keyword "type".toList) m] else []) ++
        (Tree.leaf .identifier ⟨o, o + s.name.chars.length⟩).as .name ::
          asNodes (o + s.name.chars.length) s.newName)) := by
  have name : (Tree.leaf .identifier ⟨o, o + s.name.chars.length⟩).text S =
      String.ofList s.name.chars := text_node on
  have on_as := drop_behind on
  obtain ⟨front, typed, n, newName, behind⟩ := s
  cases newName with
  | none =>
    refine ⟨rfl, by cases typed <;> rfl, ?_, ?_⟩
    · cases typed <;> exact congrArg (fun text => [text]) name
    · rw [names_inner _ rfl]
      cases typed <;> simp [names_as, names_leaf, asNodes, Kind.isInner, Kind.declaresType]
  | some a =>
    have aliased : (Tree.leaf .identifier ⟨o + n.chars.length + 4,
        o + n.chars.length + 4 + a.chars.length⟩).text S = String.ofList a.chars :=
      text_node (drop_asChars rfl on_as)
    refine ⟨rfl, by cases typed <;> rfl, ?_, ?_⟩
    · cases typed <;> exact congrArg (fun text => [text]) aliased
    · rw [names_inner _ rfl]
      cases typed <;> simp [names_as, names_leaf, asNodes, Kind.isInner, Kind.declaresType]

theorem reads_specifier (s : Specifier) (stop : p = o + s.coreChars.length)
    (on : S.drop o = s.coreChars ++ v) (before : Before c o (s.coreChars ++ v))
    (ends : EndsSpecifier v) :
    ∃ t, importSpecifier.reads? e c = some ([t], ⟨p, v⟩) ∧ IsBinding S s t := by
  have here := before.stays
  rw [Specifier.coreChars, List.length_append, List.length_append] at stop
  rw [Specifier.coreChars, List.append_assoc, List.append_assoc] at on here before
  cases typed : s.typed with
  | true =>
    rw [typed, if_pos rfl] at stop on here before
    have on_name : S.drop (o + 5) = s.name.chars ++ (s.asChars ++ v) :=
      drop_behind (w := "type ".toList) on
    have mark := reads_word (k := .keyword "type".toList) (u := "type".toList)
      (t := ' ' :: (s.name.chars ++ (s.asChars ++ v))) (e := e) here
      (isWhole_of_letters (by decide) (by decide)) endsWord_space
    have name := reads_specifierName (e := e) s ["as"] (by decide)
      (s.name.shown (o + 5) (s.asChars ++ v)).space ends
    have parts := reads_left (g := importSpecifier.specifierName []) (reads_seq
      (reads_left (g := key "typeof") mark) name)
    have binding := isBinding_of_parts (l := ⟨o, p⟩) (m := ⟨o, o + 4⟩) on_name
    rw [typed, if_pos rfl] at binding
    obtain rfl : p = o + 5 + s.name.chars.length + s.asChars.length := by
      rw [stop, ← Nat.add_assoc, ← Nat.add_assoc]
      rfl
    exact ⟨_, reads_node before parts, binding⟩
  | false =>
    rw [typed, if_neg (by simp)] at stop on here before
    have ends_name := s.endsWord_name ends
    have unmarked : (Form.seq (key "type" <|> key "typeof") (importSpecifier.specifierName ["as"])).reads?
        e ⟨o, s.name.chars ++ (s.asChars ++ v)⟩ = none := by
      have no_mark : (key "type" <|> key "typeof" : F).reads? e
          ⟨o, s.name.chars ++ (s.asChars ++ v)⟩ = none :=
        (reads_right (no_special s.name here ends_name (by decide))).trans
          (no_special s.name here ends_name (by decide))
      exact reads_seq_left_none no_mark
    have parts := (reads_right unmarked).trans (reads_specifierName (e := e) s [] (by decide) here ends)
    have binding := isBinding_of_parts (l := ⟨o, p⟩) (m := ⟨o, o⟩) on
    rw [typed, if_neg (by simp)] at binding
    obtain rfl : p = o + s.name.chars.length + s.asChars.length := by
      rw [stop, List.length_nil]
      omega
    exact ⟨_, reads_node before parts, binding⟩

end Specifier

section List

variable {S v g : List Char} {e : Ending} {c : Cursor} {o : Nat}

theorem reads_mark_behind {x : Char} (blank : ∀ y ∈ g, isSpace y = true) (shown : isSpace x = false)
    (no_slash : x ≠ '/') :
    (Form.token (.symbol [x] []) : F).reads? e ⟨o, g ++ x :: v⟩ =
      some ([.leaf (.symbol [x]) ⟨o + g.length, o + g.length + 1⟩], ⟨o + g.length + 1, v⟩) := by
  have here : Before ⟨o + g.length, x :: v⟩ (o + g.length) ([x] ++ v) := .here shown no_slash
  rw [reads_token_behind ((skipGap_blanks blank here).trans here.skipGap.symm)]
  exact reads_mark here (by simp)

theorem skipGap_closing (blank : ∀ y ∈ g, isSpace y = true) :
    skipGap ⟨o, g ++ '\x7d' :: v⟩ = skipGap ⟨o + g.length, '\x7d' :: v⟩ ∧
      Meets [.mark ['\x7d']] ⟨o + g.length, '\x7d' :: v⟩ := by
  have here : Before ⟨o + g.length, '\x7d' :: v⟩ (o + g.length) (['\x7d'] ++ v) :=
    .here (by decide) (by decide)
  exact ⟨(skipGap_blanks blank here).trans here.skipGap.symm,
    here.meets (meets_mark (by decide) _ _)⟩

def furtherChars (ss : List Specifier) (closing : Blanks) (v : List Char) : List Char :=
  ss.flatMap (',' :: ·.chars) ++ (closing.chars ++ '\x7d' :: v)

theorem endsSpecifier_further (b : Blanks) (ss : List Specifier) (closing : Blanks) :
    EndsSpecifier (b.chars ++ furtherChars ss closing v) := by
  cases ss with
  | nil =>
    refine ⟨b.chars ++ closing.chars, '\x7d', v, by simp [furtherChars], ?_, Or.inr rfl⟩
    intro y member
    exact (List.mem_append.1 member).elim (b.blank y) (closing.blank y)
  | cons s ss => exact ⟨b.chars, ',', _, rfl, b.blank, Or.inl rfl⟩

theorem reads_inList (s : Specifier) (ss : List Specifier) (closing : Blanks)
    (on : S.drop o = s.chars ++ furtherChars ss closing v) :
    ∃ t p, importSpecifier.reads? e ⟨o, s.chars ++ furtherChars ss closing v⟩ =
        some ([t], ⟨p, s.behind.chars ++ furtherChars ss closing v⟩) ∧
      S.drop p = s.behind.chars ++ furtherChars ss closing v ∧ IsBinding S s t := by
  rw [Specifier.chars, List.append_assoc, List.append_assoc] at on ⊢
  have on_core := drop_behind on
  have shown : Before ⟨o + s.front.chars.length, s.coreChars ++ (s.behind.chars ++ furtherChars ss closing v)⟩
      (o + s.front.chars.length) (s.coreChars ++ (s.behind.chars ++ furtherChars ss closing v)) := by
    rw [Specifier.coreChars, List.append_assoc]
    split
    · exact .here (by decide) (by decide)
    · rw [List.append_assoc]
      exact s.name.shown _ _
  obtain ⟨t, read, binding⟩ := reads_specifier (e := e) s rfl on_core shown
    (endsSpecifier_further s.behind ss closing)
  refine ⟨t, _, ?_, drop_behind on_core, binding⟩
  exact (reads_node_behind ((skipGap_blanks s.front.blank shown).trans shown.skipGap.symm)).trans read

theorem runs_specifiers (ss : List Specifier) (closing b : Blanks)
    (on : S.drop o = b.chars ++ furtherChars ss closing v) :
    ∃ nodes ts q, ∃ b' : Blanks, Runs (comma ++ importSpecifier) e
        ⟨o, b.chars ++ furtherChars ss closing v⟩ nodes ⟨q, b'.chars ++ '\x7d' :: v⟩ ∧
      S.drop q = b'.chars ++ '\x7d' :: v ∧ List.Forall₂ (IsBinding S) ss ts ∧ Weaves nodes ts := by
  induction ss generalizing o b with
  | nil =>
    have blank : ∀ y ∈ b.chars ++ closing.chars, isSpace y = true := by
      intro y member
      exact (List.mem_append.1 member).elim (b.blank y) (closing.blank y)
    have text : b.chars ++ furtherChars [] closing v = (b.chars ++ closing.chars) ++ '\x7d' :: v := by
      simp [furtherChars]
    rw [text] at on ⊢
    exact ⟨[], [], o, ⟨_, blank⟩, .done _, on, .nil, .nil⟩
  | cons s ss ih =>
    have text : furtherChars (s :: ss) closing v = ',' :: (s.chars ++ furtherChars ss closing v) := by
      simp [furtherChars]
    rw [text] at on ⊢
    have on_item : S.drop (o + b.chars.length + 1) = s.chars ++ furtherChars ss closing v :=
      drop_behind (w := [',']) (drop_behind on)
    obtain ⟨t, p, read, on_rest, binding⟩ := reads_inList (e := e) s ss closing on_item
    obtain ⟨nodes, ts, q, b', runs, ended, bindings, weaves⟩ := ih s.behind on_rest
    have separator : comma.reads? e ⟨o, b.chars ++ ',' :: (s.chars ++ furtherChars ss closing v)⟩ = _ :=
      reads_mark_behind b.blank (by decide) (by decide)
    exact ⟨_, t :: ts, q, b', .round (reads_seq separator read) runs, ended, .cons binding bindings,
      .mark [','] _ (.node t weaves)⟩

theorem reads_specifiers (i : ImportText) (on : S.drop o = i.listChars ++ '\x7d' :: v) :
    ∃ nodes ts q, ∃ b : Blanks, (Form.opt (commaList importSpecifier)).reads? e
        ⟨o, i.listChars ++ '\x7d' :: v⟩ = some (nodes, ⟨q, b.chars ++ '\x7d' :: v⟩) ∧
      S.drop q = b.chars ++ '\x7d' :: v ∧ List.Forall₂ (IsBinding S) i.specifiers ts ∧
      Weaves nodes ts := by
  rw [ImportText.listChars, List.append_assoc] at on ⊢
  cases specifiers : i.specifiers with
  | nil =>
    rw [specifiers] at on
    obtain ⟨gap, meets⟩ := skipGap_closing (o := o) (v := v) i.closing.blank
    have no_binding : importSpecifier.reads? e ⟨o, i.closing.chars ++ '\x7d' :: v⟩ = none :=
      (reads_node_behind gap).trans (reads?_of_misfits meets (by decide))
    have no_list : (commaList importSpecifier).reads? e ⟨o, i.closing.chars ++ '\x7d' :: v⟩ = none :=
      reads_seq_left_none (reads_seq_left_none no_binding)
    exact ⟨[], [], o, i.closing, reads_opt_none no_list, on, .nil, .nil⟩
  | cons s ss =>
    have text : setApart [','] ((s :: ss).map Specifier.chars) ++ (i.closing.chars ++ '\x7d' :: v) =
        s.chars ++ furtherChars ss i.closing v := by
      rw [List.map_cons, setApart, List.flatMap_map, List.append_assoc]
      rfl
    rw [specifiers, text] at on
    rw [text]
    obtain ⟨t, p, read, on_rest, binding⟩ := reads_inList (e := e) s ss i.closing on
    obtain ⟨nodes, ts, q, b, runs, ended, bindings, weaves⟩ :=
      runs_specifiers (e := e) ss i.closing s.behind on_rest
    obtain ⟨gap, meets⟩ := skipGap_closing (o := q) (v := v) b.blank
    have no_comma : comma.reads? e ⟨q, b.chars ++ '\x7d' :: v⟩ = none :=
      (reads_token_behind gap).trans (reads?_of_misfits meets (by decide))
    have stops : (comma ++ importSpecifier : F).reads? e ⟨q, b.chars ++ '\x7d' :: v⟩ = none :=
      reads_seq_left_none no_comma
    refine ⟨_, t :: ts, q, b, reads_opt (reads_seq (reads_seq read (reads_many (by decide) runs stops))
      (reads_opt_none no_comma)), ended, .cons binding bindings, ?_⟩
    rw [List.append_nil]
    exact .node t weaves

structure IsBindingList (S : List Char) (ss : List Specifier) (t : Tree) : Prop where
  kind : t.kind = .namedImports
  bindings : List.Forall₂ (IsBinding S) ss (t.childrenOf .importSpecifier)
  names : t.names S false = []

theorem isBindingList {ss : List Specifier} {nodes ts : List Tree} {s l r : Span}
    (bindings : List.Forall₂ (IsBinding S) ss ts) (weaves : Weaves nodes ts) :
    IsBindingList S ss (.node .namedImports none s
      ([.leaf (.symbol ['\x7b']) l] ++ nodes ++ [.leaf (.symbol ['\x7d']) r])) := by
  have whole := ((Weaves.mark ['\x7b'] l .nil).append weaves).append (.mark ['\x7d'] r .nil)
  rw [List.nil_append, List.append_nil] at whole
  have kinds : ∀ t ∈ ts, t.kind = .importSpecifier :=
    ((List.forall₂_and_left _ _).1 (bindings.flip.imp fun _ _ binding => ⟨binding.kind, binding⟩)).1
  refine ⟨rfl, ?_, ?_⟩
  · rwa [Tree.childrenOf, Tree.children, Weaves.filter (by simp) kinds whole]
  · rw [names_inner _ rfl, whole.flatMap (fun m _ => names_mark false m),
      ← flatMap_eq_of_forall₂ (f := fun _ => []) (fun _ _ binding => binding.names.symm) bindings]
    simp

theorem reads_namedImports (i : ImportText) (on : S.drop o = '\x7b' :: (i.listChars ++ '\x7d' :: v))
    (before : Before c o ('\x7b' :: (i.listChars ++ '\x7d' :: v))) :
    ∃ t p, namedImports.reads? e c = some ([t], ⟨p, v⟩) ∧ S.drop p = v ∧
      IsBindingList S i.specifiers t := by
  have here : Before ⟨o, '\x7b' :: (i.listChars ++ '\x7d' :: v)⟩ o
      (['\x7b'] ++ (i.listChars ++ '\x7d' :: v)) := before.stays
  have on_list : S.drop (o + 1) = i.listChars ++ '\x7d' :: v := drop_behind (w := ['\x7b']) on
  obtain ⟨nodes, ts, q, b, list, ended, bindings, weaves⟩ := reads_specifiers (e := .never) i on_list
  have closing : (sym "\x7d").reads? e ⟨q, b.chars ++ '\x7d' :: v⟩ = _ :=
    reads_mark_behind b.blank (by decide) (by decide)
  exact ⟨_, _, reads_node before (reads_seq (reads_seq (reads_mark here (by simp)) list) closing),
    drop_behind (w := ['\x7d']) (drop_behind ended), isBindingList bindings weaves⟩

end List

theorem kind_leaf (k : Kind) (s : Span) : (Tree.leaf k s).kind = k := rfl

def ImportHead.bindingChars : ImportHead → List Char
  | withDefault name => name.chars ++ ", ".toList
  | _ => []

def ImportText.innerChars (i : ImportText) (v : List Char) : List Char :=
  i.head.bindingChars ++ '\x7b' :: (i.listChars ++ '\x7d' :: v)

structure IsClause (S : List Char) (ss : List Specifier) (t : Tree) : Prop where
  kind : t.kind = .importClause
  list : ∃ l, t.childrenOf .namedImports = [l] ∧ IsBindingList S ss l
  unmarked : t.hasKeyword "type" = false
  names : t.names S false = []

section Statement

variable {S v : List Char} {e : Ending} {c : Cursor} {o : Nat} (i : ImportText)

theorem reads_importClause (on : S.drop o = i.innerChars v) (before : Before c o (i.innerChars v)) :
    ∃ t p, importClause.reads? e c = some ([t], ⟨p, v⟩) ∧ S.drop p = v ∧
      IsClause S i.specifiers t := by
  have here := before.stays
  cases head : i.head with
  | withDefault name =>
    have text : i.innerChars v =
        name.chars ++ ',' :: ' ' :: '\x7b' :: (i.listChars ++ '\x7d' :: v) := by
      simp [ImportText.innerChars, head, ImportHead.bindingChars]
    rw [text] at on here before
    have on_list : S.drop (o + name.chars.length + 2) = '\x7b' :: (i.listChars ++ '\x7d' :: v) :=
      drop_behind (w := [',', ' ']) (drop_behind on)
    have ends : EndsWord (',' :: ' ' :: '\x7b' :: (i.listChars ++ '\x7d' :: v)) := by
      intro x first
      obtain rfl := Option.some.inj first
      decide
    have leads : Meets [.word name.chars] ⟨o, name.chars ++ ',' :: ' ' :: '\x7b' :: (i.listChars ++ '\x7d' :: v)⟩ :=
      .cons here (.word name.whole ends) (.nil _)
    have no_star := reads?_of_misfits (f := namespaceImport) (e := e) leads rfl
    have no_list := reads?_of_misfits (f := namedImports) (e := e) leads rfl
    have binding : (anyName .identifier : F).reads? e _ = _ :=
      reads_bindingName name here ends (List.forall_mem_nil _)
    have brace (q : Nat) : Before ⟨q, ' ' :: '\x7b' :: (i.listChars ++ '\x7d' :: v)⟩ (q + 1)
        ('\x7b' :: (i.listChars ++ '\x7d' :: v)) := .space (.here (by decide) (by decide))
    obtain ⟨l, p, read, ended, list⟩ := reads_namedImports (e := e) i on_list (brace _)
    have still_no_star : namespaceImport.reads? e
        ⟨o + name.chars.length + 1, ' ' :: '\x7b' :: (i.listChars ++ '\x7d' :: v)⟩ = none :=
      reads?_of_misfits (.cons (w := ['\x7b']) (brace _) (.mark ⟨'\x7b', rfl, by decide⟩) (.nil _)) (by decide)
    have separator : comma.reads? e ⟨o + name.chars.length,
        ',' :: ' ' :: '\x7b' :: (i.listChars ++ '\x7d' :: v)⟩ = _ :=
      reads_mark (.here (by decide) (by decide)) (by simp)
    have parts := reads_seq binding (reads_opt (reads_seq separator ((reads_right still_no_star).trans read)))
    refine ⟨_, p, reads_node before ((reads_right no_star).trans ((reads_right no_list).trans parts)), ended,
      rfl, ⟨l, ?_, list⟩, ?_, ?_⟩
    · simp [Tree.childrenOf, Tree.children, kind_leaf, list.kind]
    · simp [Tree.hasKeyword, Tree.children, kind_leaf, list.kind]
    · rw [names_inner _ rfl]
      simp [names_leaf (k := .identifier) false rfl, list.names]
  | _ =>
    have text : i.innerChars v = '\x7b' :: (i.listChars ++ '\x7d' :: v) := by
      simp [ImportText.innerChars, head, ImportHead.bindingChars]
    rw [text] at on here before
    have no_star : namespaceImport.reads? e ⟨o, '\x7b' :: (i.listChars ++ '\x7d' :: v)⟩ = none :=
      reads?_of_misfits (here.meets (meets_mark (by decide) _ _)) (by decide)
    obtain ⟨l, p, read, ended, list⟩ := reads_namedImports (e := e) i on here
    refine ⟨_, p, reads_node before ((reads_right no_star).trans (reads_left read)), ended, rfl,
      ⟨l, ?_, list⟩, ?_, ?_⟩
    · simp [Tree.childrenOf, Tree.children, list.kind]
    · simp [Tree.hasKeyword, Tree.children, list.kind]
    · rw [names_inner _ rfl, List.flatMap_singleton, list.names]

theorem stringRest?_plain {q : Char} {w : List Char} (quote : Declaration.isQuote q = true)
    (plain : ∀ x ∈ w, x ∉ ['\'', '"', '\\', '\n', '\r']) (length : Nat) :
    stringRest? q length 0 (w ++ q :: v) = some (length + (w.length + 1)) := by
  induction w generalizing length with
  | nil => exact stringRest?_quote q length v
  | cons x w ih =>
    have apart := plain x List.mem_cons_self
    simp only [List.mem_cons, List.not_mem_nil, or_false, not_or] at apart
    have not_quote : x ≠ q := by
      rintro rfl
      simp [Declaration.isQuote, apart.1, apart.2.1] at quote
    rw [List.cons_append, stringRest?_other length _ not_quote apart.2.2.1,
      if_neg (by simp [apart.2.2.2]), ih fun y member => plain y (List.mem_cons_of_mem x member),
      List.length_cons]
    congr 1
    omega

def ImportText.sourceChars : List Char :=
  ' ' :: ("from".toList ++ ' ' :: (i.quote :: (i.path ++ [i.quote])))

theorem reads_source : ∃ l m p, source.reads? e ⟨o, i.sourceChars ++ v⟩ =
    some ([.leaf (.keyword "from".toList) l, .leaf .string m], ⟨p, v⟩) := by
  have text : i.sourceChars ++ v = ' ' :: ("from".toList ++ ' ' :: (i.quote :: (i.path ++ i.quote :: v))) := by
    have shape (w : List Char) : ' ' :: (w ++ ' ' :: (i.quote :: (i.path ++ [i.quote]))) ++ v =
        ' ' :: (w ++ ' ' :: (i.quote :: (i.path ++ i.quote :: v))) := by simp
    exact shape _
  rw [text]
  have word_here : Before ⟨o, ' ' :: ("from".toList ++ ' ' :: (i.quote :: (i.path ++ i.quote :: v)))⟩ (o + 1)
      ("from".toList ++ ' ' :: (i.quote :: (i.path ++ i.quote :: v))) :=
    .space (.here (by decide) (by decide))
  have word : (key "from").reads? e _ = _ := reads_word word_here
    (isWhole_of_letters (by decide) (by decide)) endsWord_space
  have quoted : (i.quote == '\'' || i.quote == '"') = true := i.quoted
  have shown : isSpace i.quote = false ∧ i.quote ≠ '/' := by
    simp only [Bool.or_eq_true, beq_iff_eq] at quoted
    rcases quoted with quote | quote <;> rw [quote] <;> decide
  have whole : i.quote :: (i.path ++ i.quote :: v) = (i.quote :: (i.path ++ [i.quote])) ++ v := by simp
  have string_here (q : Nat) : Before ⟨q, ' ' :: (i.quote :: (i.path ++ i.quote :: v))⟩ (q + 1)
      ((i.quote :: (i.path ++ [i.quote])) ++ v) := by
    rw [← whole]
    exact .space (.here shown.1 shown.2)
  have length : Token.string.length? ((i.quote :: (i.path ++ [i.quote])) ++ v) =
      some (i.quote :: (i.path ++ [i.quote])).length := by
    rw [← whole, Token.length?_string, stringLength?, if_pos quoted, stringRest?_plain i.quoted i.plain]
    exact congrArg some (by simp only [List.length_cons, List.length_append, List.length_nil]; omega)
  exact ⟨_, _, _, reads_seq word (reads_token (string_here _) length)⟩

theorem reads_importTail (on : S.drop o = i.innerChars (i.sourceChars ++ ';' :: v))
    (before : Before c o (i.innerChars (i.sourceChars ++ ';' :: v))) :
    ∃ t l m p, importTail.reads? e c =
        some ([t] ++ [.leaf (.keyword "from".toList) l, .leaf .string m], ⟨p, ';' :: v⟩) ∧
      IsClause S i.specifiers t := by
  obtain ⟨t, q, clause, _, isClause⟩ := reads_importClause (e := e) i on before
  obtain ⟨l, m, p, source⟩ := reads_source (e := e) (o := q) (v := ';' :: v) i
  have no_attributes : attributes.reads? e ⟨p, ';' :: v⟩ = some ([], ⟨p, ';' :: v⟩) :=
    reads?_of_idles (.cons (w := [';']) (.here (by decide) (by decide)) (.mark ⟨';', rfl, by decide⟩)
      (.nil _)) (by decide)
  have tail := reads_seq (reads_left (g := importRequire) (reads_seq clause source)) no_attributes
  rw [List.append_nil] at tail
  exact ⟨t, l, m, p, tail, isClause⟩

def ImportHead.marks (s : Span) : ImportHead → List Tree
  | typed => [.leaf (.keyword "type".toList) s]
  | _ => []

theorem reads_unmarked {x : List Tree × Cursor} (no_type : (key "type").reads? e c = none)
    (no_typeof : (key "typeof").reads? e c = none) (tail : importTail.reads? e c = some x) :
    (((key "type" <|> key "typeof") ++ importTail) <|> importTail <|>
      (token .string ++ attributes) : F).reads? e c = some x := by
  have no_mark : (key "type" <|> key "typeof" : F).reads? e c = none :=
    (reads_right no_type).trans no_typeof
  exact (reads_right (reads_seq_left_none no_mark)).trans (reads_left tail)

theorem reads_marked (on : S.drop o = i.clauseChars ++ (i.sourceChars ++ ';' :: v))
    (before : Before c o (i.clauseChars ++ (i.sourceChars ++ ';' :: v))) :
    ∃ t l m n p, (((key "type" <|> key "typeof") ++ importTail) <|> importTail <|>
        (token .string ++ attributes) : F).reads? e c =
        some (i.head.marks n ++ ([t] ++ [.leaf (.keyword "from".toList) l, .leaf .string m]),
          ⟨p, ';' :: v⟩) ∧
      IsClause S i.specifiers t := by
  set rest := i.sourceChars ++ ';' :: v with rest_eq
  cases head : i.head with
  | typed =>
    have inner : i.innerChars rest = '\x7b' :: (i.listChars ++ '\x7d' :: rest) := by
      simp [ImportText.innerChars, head, ImportHead.bindingChars]
    have text : i.clauseChars ++ rest = "type".toList ++ ' ' :: i.innerChars rest := by
      simp [ImportText.clauseChars, head, ImportHead.chars, inner]
    rw [text] at on before
    have shown (q : Nat) : Before ⟨q, ' ' :: i.innerChars rest⟩ (q + 1) (i.innerChars rest) := by
      rw [inner]
      exact .space (.here (by decide) (by decide))
    have mark : (key "type").reads? e c = _ :=
      reads_word before (isWhole_of_letters (by decide) (by decide)) endsWord_space
    obtain ⟨t, l, m, p, tail, clause⟩ := reads_importTail (e := e) i
      (drop_behind (w := "type ".toList) on) (shown _)
    exact ⟨t, l, m, _, p, reads_left (reads_seq (reads_left mark) tail), clause⟩
  | bare =>
    have inner : i.innerChars rest = '\x7b' :: (i.listChars ++ '\x7d' :: rest) := by
      simp [ImportText.innerChars, head, ImportHead.bindingChars]
    have text : i.clauseChars ++ rest = i.innerChars rest := by
      simp [ImportText.clauseChars, head, ImportHead.chars, inner]
    rw [text] at on before
    obtain ⟨t, l, m, p, tail, clause⟩ := reads_importTail (e := e) i on before
    rw [inner] at before
    have leads : Meets [.mark ['\x7b']] c := before.meets (meets_mark (by decide) _ _)
    exact ⟨t, l, m, ⟨0, 0⟩, p, reads_unmarked (reads?_of_misfits leads (by decide))
      (reads?_of_misfits leads (by decide)) tail, clause⟩
  | withDefault name =>
    have inner : i.innerChars rest = name.chars ++ ',' :: ' ' :: '\x7b' :: (i.listChars ++ '\x7d' :: rest) := by
      simp [ImportText.innerChars, head, ImportHead.bindingChars]
    have text : i.clauseChars ++ rest = i.innerChars rest := by
      simp [ImportText.clauseChars, head, ImportHead.chars, inner]
    rw [text] at on before
    obtain ⟨t, l, m, p, tail, clause⟩ := reads_importTail (e := e) i on before
    rw [inner] at before
    have ends : EndsWord (',' :: ' ' :: '\x7b' :: (i.listChars ++ '\x7d' :: rest)) := by
      intro x first
      obtain rfl := Option.some.inj first
      decide
    exact ⟨t, l, m, ⟨0, 0⟩, p, reads_unmarked (no_special name before ends (by decide))
      (no_special name before ends (by decide)) tail, clause⟩

theorem mem_names_of_clause {t : Tree} {nodes : List Tree} {s : Span} (clause : IsClause S i.specifiers t)
    (only : (Tree.node .importStatement none s nodes).childrenOf .importClause = [t])
    (mark : (Tree.node .importStatement none s nodes).hasKeyword "type" = true ↔ i.head = .typed)
    (none_below : nodes.flatMap (Tree.names S false) = []) (n : String) :
    n ∈ (Tree.node .importStatement none s nodes).names S false ↔
      ∃ s ∈ i.specifiers, i.MarksType s ∧ String.ofList s.localName.chars = n := by
  obtain ⟨named, lists, list⟩ := clause.list
  have imports : (Tree.node .importStatement none s nodes).names S false =
      (Tree.node .importStatement none s nodes).typeImports S ++ Tree.namesOfAll S none nodes :=
    names_other false (by simp) (by simp)
  rw [imports, namesOfAll_none, none_below, List.append_nil, Tree.typeImports, only,
    List.flatMap_singleton, lists, List.flatMap_singleton, List.mem_flatMap]
  simp only [List.mem_filter, and_assoc]
  apply exists_iff_of_forall₂ list.bindings
  intro s u binding
  rw [clause.unmarked, Bool.or_false, Bool.or_eq_true, mark, binding.mark, binding.named,
    List.mem_singleton, eq_comm (a := n)]
  rfl

theorem mem_names_import {t : Tree} {a l m n s semi : Span} (clause : IsClause S i.specifiers t) :
    ∀ w, w ∈ Tree.names S false (.node .importStatement none s ([.leaf (.keyword "import".toList) a] ++
      (i.head.marks n ++ ([t] ++ [.leaf (.keyword "from".toList) l, .leaf .string m])) ++
        [.leaf (.symbol [';']) semi])) ↔
      ∃ s ∈ i.specifiers, i.MarksType s ∧ String.ofList s.localName.chars = w := by
  apply mem_names_of_clause i clause
  · cases i.head <;> simp [Tree.childrenOf, Tree.children, kind_leaf, clause.kind, ImportHead.marks]
  · cases i.head <;> simp [Tree.hasKeyword, Tree.children, kind_leaf, clause.kind, ImportHead.marks]
  · have path : (Tree.leaf .string m).names S false = [] := names_leaf false rfl
    cases i.head <;> simp [clause.names, path, ImportHead.marks]

theorem ImportText.chars_eq : i.chars =
    "import".toList ++ ' ' :: (i.clauseChars ++ (i.sourceChars ++ ';' :: ['\n'])) := by
  have shape (w c u : List Char) : w ++ ' ' :: c ++ ' ' :: (u ++ [' ']) ++ i.quote :: i.path ++
      i.quote :: [';'] ++ ['\n'] =
        w ++ ' ' :: (c ++ (' ' :: (u ++ ' ' :: (i.quote :: (i.path ++ [i.quote]))) ++ ';' :: ['\n'])) := by
    simp
  exact shape "import".toList i.clauseChars "from".toList

/-- The import is read as one statement, which refers to the bindings of types. -/
theorem reads_importStatement :
    ∃ t p, (rule .statement : F).reads? .never (Cursor.ofText i.chars) = some ([t], ⟨p, ['\n']⟩) ∧
      ∀ n, n ∈ t.names i.chars false ↔
        ∃ s ∈ i.specifiers, i.MarksType s ∧ String.ofList s.localName.chars = n := by
  set S := i.chars with text
  rw [i.chars_eq] at text
  have here : Before ⟨0, "import".toList ++ ' ' :: (i.clauseChars ++ (i.sourceChars ++ ';' :: ['\n']))⟩ 0
      ("import".toList ++ ' ' :: (i.clauseChars ++ (i.sourceChars ++ ';' :: ['\n']))) :=
    .here (by decide) (by decide)
  have on : S.drop 7 = i.clauseChars ++ (i.sourceChars ++ ';' :: ['\n']) := by
    rw [text]
    rfl
  have shown : Before ⟨6, ' ' :: (i.clauseChars ++ (i.sourceChars ++ ';' :: ['\n']))⟩ 7
      (i.clauseChars ++ (i.sourceChars ++ ';' :: ['\n'])) := by
    apply Before.space
    rw [ImportText.clauseChars, List.append_assoc]
    cases i.head with
    | bare => exact .here (by decide) (by decide)
    | typed => exact .here (by decide) (by decide)
    | withDefault name =>
      rw [ImportHead.chars, List.append_assoc]
      exact name.shown _ _
  have whole : IsWhole "import".toList := isWhole_of_letters (by decide) (by decide)
  obtain ⟨t, l, m, n, p, parts, clause⟩ := reads_marked (e := .never) i on shown
  have word : (key "import").reads? .never _ = _ := reads_word here whole endsWord_space
  have closing : (semicolon .declaration).reads? .never ⟨p, ';' :: ['\n']⟩ = _ :=
    reads_left (reads_mark (u := [';']) (.here (by decide) (by decide)) (by simp))
  have leads : Meets [.word "import".toList]
      ⟨0, "import".toList ++ ' ' :: (i.clauseChars ++ (i.sourceChars ++ ';' :: ['\n']))⟩ :=
    .cons here (.word whole endsWord_space) (.nil _)
  have statement := reads_rule (r := .statement) (reads_choice_before (i := 2) rfl leads (by decide)
    (reads_node here (reads_seq (reads_seq word parts) closing)))
  rw [← text] at statement
  exact ⟨_, _, statement, mem_names_import i clause⟩

end Statement

/-- An import by name comes out as one import with its path. Its custom types are the names that its
    bindings of types have in the importing text, in ascending order, without those that are built
    in. Bindings of values and of the default export add none. -/
theorem ImportText.extract_imports (i : ImportText) :
    ∃ types, (extract (String.ofList i.chars)).result =
        .ok ⟨[], [], [⟨.importFrom, some (String.ofList i.path), String.ofList i.chars, types⟩]⟩ ∧
      Text.Ascending types ∧ ∀ n, n ∈ types ↔ n ∉ builtinTypes ∧
        ∃ s ∈ i.specifiers, i.MarksType s ∧ String.ofList s.localName.chars = n := by
  obtain ⟨t, p, read, names⟩ := reads_importStatement i
  have no_script : i.chars.head? ≠ some '#' := by
    rw [i.chars_eq]
    change some 'i' ≠ some '#'
    decide
  have parsed := parse?_of_statement no_script read (skipGap_break (Or.inl rfl : Beyond true []))
  have tree : parse? (Text.dedent (String.ofList i.chars).toList) =
      some (.node .program none ⟨0, p + 1⟩ [t]) := by rwa [String.toList_ofList, i.dedent_chars]
  refine ⟨_, i.extract_chars, Tree.ascending_collectTypes tree, ?_⟩
  intro n
  rw [Tree.collectTypes_of_parse? tree, Tree.mem_customTypes_iff_names, names_inner _ rfl,
    List.flatMap_singleton, String.toList_ofList, i.dedent_chars, names, and_comm]

def sampleImport : ImportText where
  head := .withDefault ⟨"main".toList, isWhole_of_letters (by decide) (by decide), by decide⟩
  specifiers :=
    [⟨⟨[' '], by decide⟩, true, ⟨"Row".toList, isWhole_of_letters (by decide) (by decide), by decide⟩,
        some ⟨"DbRow".toList, isWhole_of_letters (by decide) (by decide), by decide⟩, ⟨[], by decide⟩⟩,
      ⟨⟨"\n  ".toList, by decide⟩, false,
        ⟨"from".toList, isWhole_of_letters (by decide) (by decide), by decide⟩, none, ⟨[], by decide⟩⟩]
  closing := ⟨[' '], by decide⟩
  quote := '"'
  path := "./db".toList
  quoted := by decide
  plain := by decide

example : String.ofList sampleImport.chars =
    "import main, \x7b type Row as DbRow,\n  from \x7d from \"./db\";\n" ∧
    collectTypes (String.ofList sampleImport.chars) = ["DbRow"] := by
  decide +kernel

end SourceSpecs.Syntax
