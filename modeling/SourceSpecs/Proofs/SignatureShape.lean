import SourceSpecs.Proofs.FunctionNames
import SourceSpecs.Proofs.ReadNodes
/-!
How a function is laid out. Right under it stands one list of parameters, and behind the list the
annotation of what is returned, if there is one. Right under a parameter stands its pattern, behind
the pattern its annotation, and behind that its default value, if they are given.
-/
namespace SourceSpecs.Syntax

open Syntax.Tree Signature

variable {S : List Char} {f g : Form Rule} {e : Ending} {c d : Cursor} {nodes : List Tree}

section Annotations

/-- An annotation: a colon, and something that is no blank behind it. -/
structure HoldsType (S : List Char) (t : Tree) : Prop where
  kind : t.kind = .typing
  text : ∃ u, t.span.slice S = ':' :: u ∧ ∃ x ∈ u, isShown x = true

theorem gives_holdsType (eats : f.eats Rule.eats = true)
    (begins : f.begins isShown Rule.eats Rule.eats = true) :
    Gives S (Ends (IsComment S) (HoldsType S)) (.node .typing (.seq (Grammar.sym ":") f)) := by
  intro e c d nodes on read
  rw [reads?_node] at read
  obtain ⟨⟨cs, b⟩, inner, same⟩ := Option.map_eq_some_iff.1 read
  obtain ⟨rfl, rfl⟩ := Prod.mk.inj same
  obtain ⟨m, behind, read_f, whole, offset, _⟩ := exists_behind_mark (skipGap_skipGap c) inner
  obtain ⟨between, rest, further⟩ := reaches_of_reads? read_f
  have opens := shown_of_reads? begins read_f (progress_of_reads? eats read_f)
  refine .mk (comments_of_skipGap on) ⟨rfl, between, ?_, opens.exists_mem rest further⟩
  refine slice_of_reaches (on.reach (skipGap_moves c).reaches) ?_ ?_
  · rw [whole, rest]
    rfl
  · rw [further, offset]
    simp
    omega

theorem gives_typing : Gives S (Ends (IsComment S) (HoldsType S)) (.rule .typing) :=
  gives_rule (gives_holdsType (by decide) (by decide))

theorem gives_returnTyping : Gives S (Ends (IsComment S) (HoldsType S)) (.rule .returnTyping) :=
  gives_rule (gives_holdsType (by decide) (by decide +kernel))

structure IsTyping (S : List Char) (x : Field) (t : Tree) : Prop where
  part : t.field = some x
  holds : HoldsType S t

theorem gives_marked {x : Field} {r : Rule} (kinds : Kind → Bool) (comment : kinds .comment = true)
    (annotates : Gives S (Ends (IsComment S) (HoldsType S)) (.rule r)) :
    Gives S (MayEnd (Bare kinds) (IsTyping S x)) (.opt (.field x (.rule r))) := by
  refine gives_opt ((gives_part kinds comment annotates ?_).mono fun _ => Ends.may) .nil
  intro t ⟨kind, text⟩
  exact ⟨by simp, by simpa using kind, by simpa using text⟩

end Annotations

section Patterns

def NamesRest (S : List Char) (t : Tree) : Prop :=
  ∃ first more, t.children.filter isNamed = first :: more ∧
    (S.drop first.span.start).head? ≠ some '.'

def Rule.isBracketed (r : Rule) : Bool := r == .objectPattern || r == .arrayPattern

theorem Rule.begins_bracketed (r : Rule) (bracketed : r.isBracketed = true) :
    r.form.begins (· != '.') eats isBracketed = true := by
  have checked : (all.all fun r => !r.isBracketed || r.form.begins (· != '.') eats isBracketed) =
      true := by
    decide +kernel
  simpa [bracketed] using List.all_eq_true.1 checked r (mem_all r)

theorem patternTarget_opens (h : Grammar.patternTarget.reads? e c = some (nodes, d)) :
    Opens (· != '.') c d := by
  refine opens_of_reads? ?_ Rule.begins_bracketed (by decide) h (progress_of_reads? (by decide) h)
  intro x start
  have other : x ≠ '.' := by
    rintro rfl
    exact absurd start (by decide)
  simpa using other

theorem patternTarget_pointless (on : c.On S)
    (h : Grammar.patternTarget.reads? e c = some (nodes, d)) :
    nodes ≠ [] ∧ ∀ t ∈ nodes, (S.drop t.span.start).head? ≠ some '.' := by
  obtain ⟨t, rfl, span⟩ := single_of_reads? (by decide) h
  refine ⟨by simp, ?_⟩
  intro u member
  rcases List.mem_append.1 member with comment | last
  · obtain ⟨s, rfl, slash⟩ := comments_of_skipGap on u comment
    change (S.drop s.start).head? ≠ _
    rw [slash]
    decide
  · obtain rfl := List.mem_singleton.1 last
    obtain ⟨x, first, other⟩ := (patternTarget_opens h).first
    rw [span, ← on.reach (skipGap_moves c).reaches, first]
    simpa using other

theorem gives_restPattern : Gives S (Ends (IsComment S) fun t =>
    t.kind = .restPattern ∧ NamesRest S t) Grammar.restPattern := by
  intro e c d nodes on read
  rw [Grammar.restPattern, reads?_node] at read
  obtain ⟨⟨cs, b⟩, inner, same⟩ := Option.map_eq_some_iff.1 read
  obtain ⟨rfl, rfl⟩ := Prod.mk.inj same
  refine .mk (comments_of_skipGap on) ⟨rfl, ?_⟩
  obtain ⟨m, behind, target, whole, offset, rfl⟩ := exists_behind_mark (skipGap_skipGap c) inner
  have on_m : m.On S := (on.reach (skipGap_moves c).reaches).reach ⟨_, whole, offset⟩
  obtain ⟨some_node, pointless⟩ := patternTarget_pointless on_m target
  obtain ⟨first, more, rfl⟩ := List.exists_cons_of_ne_nil some_node
  refine ⟨first, more, ?_, pointless first List.mem_cons_self⟩
  change List.filter isNamed (_ :: first :: more) = _
  rw [List.filter_cons_of_neg (by simp [isNamed, kind, Tree.leaf]), List.filter_eq_self]
  intro t member
  have bare := gives_bare (fun k => (Tree.leaf k ⟨0, 0⟩).isNamed) rfl (by decide) e m b _ on_m target
    t member
  cases t
  exact bare.kind

/-- A pattern with a part to play. One for the rest is named by what stands behind its points. -/
structure IsPattern (S : List Char) (t : Tree) : Prop where
  part : t.field = some .pattern
  kind : t.kind ≠ .typing
  rest : t.kind = .restPattern → NamesRest S t

def Kind.isBeside (k : Kind) : Bool := k != .typing && k != .restPattern

theorem Kind.isBeside_iff {k : Kind} : k.isBeside = true ↔ k ≠ .typing ∧ k ≠ .restPattern := by
  rw [isBeside, Bool.and_eq_true, bne_iff_ne, bne_iff_ne]

theorem gives_pattern : Gives S (Ends (Bare Kind.isBeside) (IsPattern S))
    (.field .pattern (.alt (.rule .pattern) (Grammar.key "this"))) := by
  have plain {f : Form Rule} (single : f.isSingle Rule.isSingle = true)
      (kept : keepsBare Kind.isBeside f = true) : Gives S (Ends (IsComment S) fun t =>
        t.kind ≠ .typing ∧ (t.kind = .restPattern → NamesRest S t)) f := by
    refine (gives_single Kind.isBeside rfl single kept).mono fun ts ends => ends.mono (fun _ h => h) ?_
    intro t bare
    obtain ⟨typing, rest⟩ := Kind.isBeside_iff.1 bare.kind
    exact ⟨typing, fun same => absurd same rest⟩
  have rest : Gives S (Ends (IsComment S) fun t =>
      t.kind ≠ .typing ∧ (t.kind = .restPattern → NamesRest S t)) Grammar.restPattern := by
    refine gives_restPattern.mono fun ts ends => ends.mono (fun _ h => h) ?_
    intro t ⟨kind, named⟩
    exact ⟨by simp [kind], fun _ => named⟩
  refine gives_part _ rfl (gives_alt (gives_rule (gives_alt rest ?_)) (plain rfl rfl)) ?_
  · exact plain (by decide) (by decide)
  · intro t ⟨typing, named⟩
    exact ⟨by simp, by simpa using typing, by simpa [NamesRest] using named⟩

end Patterns

section Parameters

structure IsValue (t : Tree) : Prop where
  part : t.field = some .value
  kind : t.kind.isBeside = true

/-- The nodes right under a parameter. -/
inductive HasParts (S : List Char) : List Tree → Prop where
  | mk {front middle gap : List Tree} {pattern : Tree} {typing value : Option Tree}
      (beside : ∀ c ∈ front ++ middle ++ gap, Bare Kind.isBeside c) (named : IsPattern S pattern)
      (typed : ∀ t ∈ typing, IsTyping S .typing t) (valued : ∀ t ∈ value, IsValue t) :
      HasParts S (front ++ pattern :: (middle ++ typing.toList ++ (gap ++ value.toList)))

theorem gives_value : Gives S (MayEnd (Bare Kind.isBeside) IsValue) (.opt Grammar.initializer) := by
  refine gives_opt (gives_seq (gives_bare Kind.isBeside rfl rfl) (gives_part _ rfl
    (gives_single Kind.isBeside rfl rfl rfl) ?_) fun _ _ bare ends => (ends.behind bare).may) .nil
  intro t bare
  exact ⟨by simp, by simpa using bare.kind⟩

theorem gives_parameter : Gives S (Ends (IsComment S) fun t =>
    t.kind = .parameter ∧ HasParts S t.children) Grammar.parameter := by
  have bare {f : Form Rule} (kept : keepsBare Kind.isBeside f = true) :
      Gives S (∀ t ∈ ·, Bare Kind.isBeside t) f := gives_bare _ rfl kept
  refine gives_node (R := Joined (Joined (Joined (Ends (Bare Kind.isBeside) (IsPattern S))
    (∀ t ∈ ·, Bare Kind.isBeside t)) (MayEnd (Bare Kind.isBeside) (IsTyping S .typing)))
    (MayEnd (Bare Kind.isBeside) IsValue)) ?_ ?_
  · refine gives_joined (gives_joined (gives_joined ?_ (bare rfl)) ?_) gives_value
    · exact gives_seq (bare rfl) gives_pattern fun _ _ => Ends.behind
    · exact gives_marked _ rfl gives_typing
  · rintro s _ ⟨_, _, rfl, ⟨_, _, rfl, ⟨_, mark, rfl, ⟨front, named⟩, optional⟩, ⟨between, typed⟩⟩,
      ⟨gap, valued⟩⟩
    have beside := List.forall_mem_append.2
      ⟨List.forall_mem_append.2 ⟨front, List.forall_mem_append.2 ⟨optional, between⟩⟩, gap⟩
    have parts := HasParts.mk beside named typed valued
    refine ⟨rfl, ?_⟩
    simpa [children] using parts

structure ListsParameters (S : List Char) (t : Tree) : Prop where
  kind : t.kind = .parameters
  parts : ∀ p ∈ t.children, p.kind = .parameter → HasParts S p.children

theorem gives_parameters : Gives S (Ends (IsComment S) (ListsParameters S)) (.rule .parameters) := by
  have plain {f : Form Rule} (kept : keepsBare (· != .parameter) f = true) :
      Gives S (∀ t ∈ ·, t.kind = .parameter → HasParts S t.children) f := by
    refine (gives_bare (· != .parameter) rfl kept).mono fun ts bare t member same => ?_
    exact absurd same (bne_iff_ne.1 (bare t member).kind)
  have one : Gives S (∀ t ∈ ·, t.kind = .parameter → HasParts S t.children) Grammar.parameter := by
    refine gives_parameter.mono fun ts ends => ends.all ?_ fun t parts _ => parts.2
    intro t comment same
    have bare : Bare (· != .parameter) t := comment.bare rfl
    exact absurd same (bne_iff_ne.1 bare.kind)
  have list : Gives S (∀ t ∈ ·, t.kind = .parameter → HasParts S t.children)
      (Grammar.commaList Grammar.parameter) :=
    gives_all (gives_all one (gives_many (gives_all (plain rfl) one))) (plain rfl)
  refine gives_rule (gives_node (gives_all (gives_all (plain rfl) (gives_within
    (gives_opt list (List.forall_mem_nil _)))) (plain rfl)) ?_)
  intro s cs parts
  exact ⟨rfl, parts⟩

end Parameters

section Functions

def Kind.isAside (k : Kind) : Bool := k != .parameters && k != .typing

theorem Kind.isAside_iff {k : Kind} : k.isAside = true ↔ k ≠ .parameters ∧ k ≠ .typing := by
  rw [isAside, Bool.and_eq_true, bne_iff_ne, bne_iff_ne]

structure Aside (t : Tree) : Prop where
  part : t.field ≠ some .parameters ∧ t.field ≠ some .returnType
  kind : t.kind.isAside = true

theorem Bare.aside {t : Tree} (h : Bare Kind.isAside t) : Aside t :=
  ⟨by simp [h.bare], h.kind⟩

/-- The nodes right under a function. -/
inductive HasSignature (S : List Char) : List Tree → Prop where
  | mk {front middle behind : List Tree} {list : Tree} {result : Option Tree}
      (aside : ∀ c ∈ front ++ middle ++ behind, Aside c) (part : list.field = some .parameters)
      (parameters : ListsParameters S list)
      (returned : ∀ t ∈ result, IsTyping S .returnType t) :
      HasSignature S (front ++ list :: (middle ++ result.toList ++ behind))

section HasSignature

variable {ts us : List Tree}

theorem HasSignature.behind (before : ∀ c ∈ ts, Aside c) (h : HasSignature S us) :
    HasSignature S (ts ++ us) := by
  cases h with
  | @mk front middle behind list result aside part parameters returned =>
    have wider : ∀ c ∈ (ts ++ front) ++ middle ++ behind, Aside c := by
      rw [List.append_assoc, List.append_assoc, ← List.append_assoc front]
      exact List.forall_mem_append.2 ⟨before, aside⟩
    have whole := HasSignature.mk wider part parameters returned
    rwa [List.append_assoc] at whole

theorem HasSignature.before (h : HasSignature S ts) (after : ∀ c ∈ us, Aside c) :
    HasSignature S (ts ++ us) := by
  cases h with
  | @mk front middle behind list result aside part parameters returned =>
    have wider : ∀ c ∈ front ++ middle ++ (behind ++ us), Aside c := by
      rw [← List.append_assoc]
      exact List.forall_mem_append.2 ⟨aside, after⟩
    have whole := HasSignature.mk wider part parameters returned
    rwa [← List.append_assoc, ← List.cons_append, ← List.append_assoc] at whole

theorem gives_behind (front : Gives S (∀ t ∈ ·, Aside t) f) (signature : Gives S (HasSignature S) g) :
    Gives S (HasSignature S) (.seq f g) :=
  gives_seq front signature fun _ _ => HasSignature.behind

theorem gives_before (signature : Gives S (HasSignature S) f) (after : Gives S (∀ t ∈ ·, Aside t) g) :
    Gives S (HasSignature S) (.seq f g) :=
  gives_seq signature after fun _ _ => HasSignature.before

end HasSignature

theorem gives_aside (kept : keepsBare Kind.isAside f = true) : Gives S (∀ t ∈ ·, Aside t) f :=
  (gives_bare Kind.isAside rfl kept).mono fun _ bare t member => (bare t member).aside

theorem gives_name {k : Kind} {ws : List String} (aside : k.isAside = true) :
    Gives S (∀ t ∈ ·, Aside t) (.field .name (Grammar.nameBut k ws)) := by
  have inner : Gives S (Ends (IsComment S) (Bare Kind.isAside)) (Grammar.nameBut k ws) :=
    gives_single Kind.isAside rfl rfl aside
  refine (gives_part (N := Aside) Kind.isAside rfl inner ?_).mono fun ts ends =>
    ends.all (fun t bare => bare.aside) fun t h => h
  intro t bare
  exact ⟨by simp, by simpa using bare.kind⟩

structure IsPartList (S : List Char) (t : Tree) : Prop where
  part : t.field = some .parameters
  parameters : ListsParameters S t

theorem gives_callSignature : Gives S (HasSignature S) (.rule .callSignature) := by
  have list : Gives S (Ends (Bare Kind.isAside) (IsPartList S))
      (.field .parameters (.rule .parameters)) := by
    refine gives_part _ rfl gives_parameters ?_
    intro t ⟨kind, parts⟩
    exact ⟨by simp, by simpa using kind, by simpa using parts⟩
  refine gives_rule (gives_seq (gives_seq (gives_bare Kind.isAside rfl rfl) list
    fun _ _ => Ends.behind) (gives_marked Kind.isAside rfl gives_returnTyping) ?_)
  intro _ _ ends may
  cases ends with
  | @mk front t before listed =>
    cases may with
    | @mk middle result between returned =>
      have aside : ∀ c ∈ front ++ middle ++ [], Aside c := by
        rw [List.append_nil]
        exact List.forall_mem_append.2
          ⟨fun c member => (before c member).aside, fun c member => (between c member).aside⟩
      have signature := HasSignature.mk aside listed.part listed.parameters returned
      simpa using signature

def Signed (S : List Char) (t : Tree) : Prop := isFunction t = true → HasSignature S t.children

def Kind.isInert (k : Kind) : Bool := !isFunction (.leaf k ⟨0, 0⟩)

theorem Bare.signed {t : Tree} (h : Bare Kind.isInert t) : Signed S t := by
  intro function
  have inert := h.kind
  rw [Kind.isInert, Bool.not_eq_true'] at inert
  change isFunction t = false at inert
  rw [function] at inert
  cases inert

theorem gives_definition {k : Kind} (signature : Gives S (HasSignature S) f) :
    Gives S (Ends (IsComment S) (Signed S)) (.node k f) :=
  gives_node signature fun _ _ signed _ => signed

theorem gives_inert (single : f.isSingle Rule.isSingle = true)
    (kept : keepsBare Kind.isInert f = true) : Gives S (Ends (IsComment S) (Signed S)) f :=
  (gives_single Kind.isInert rfl single kept).mono fun _ ends =>
    ends.mono (fun _ h => h) fun _ bare => bare.signed

theorem gives_signatureHead : Gives S (HasSignature S) Grammar.signatureHead :=
  gives_behind (gives_name rfl) (gives_within gives_callSignature)

theorem gives_declaration : Gives S (Ends (IsComment S) (Signed S)) (.rule .declaration) := by
  have block : Gives S (∀ t ∈ ·, Aside t) (.rule .block) := gives_aside rfl
  refine gives_rule (gives_alt (gives_alt ?_ (gives_alt ?_ (gives_inert rfl rfl))) ?_)
  · exact gives_definition (gives_before (gives_behind (gives_aside rfl) gives_signatureHead) block)
  · exact gives_definition (gives_before (gives_behind (gives_aside rfl) gives_signatureHead) block)
  · exact gives_inert rfl rfl

theorem gives_functionExpression :
    Gives S (Ends (IsComment S) (Signed S)) Grammar.functionExpression :=
  gives_definition (gives_before (gives_behind (gives_all (gives_aside rfl)
    (gives_opt (gives_name rfl) (List.forall_mem_nil _))) (gives_within gives_callSignature))
    (gives_aside rfl))

end Functions

section Statements

theorem gives_passed {x : Field} (inner : Gives S (Ends (IsComment S) (Signed S)) f) :
    Gives S (∀ t ∈ ·, Signed S t) (.field x f) := by
  refine (gives_part (N := Signed S) Kind.isInert rfl inner ?_).mono fun ts ends =>
    ends.all (fun t bare => bare.signed) fun t h => h
  intro t signed function
  rw [children_as]
  exact signed (by simpa [isFunction] using function)

theorem gives_unsigned (kept : keepsBare Kind.isInert f = true) : Gives S (∀ t ∈ ·, Signed S t) f :=
  (gives_bare Kind.isInert rfl kept).mono fun _ bare t member => (bare t member).signed

def Stated (S : List Char) (s : Tree) : Prop := ∀ g, Defines s g → HasSignature S g.children

theorem gives_export : Gives S (Ends (IsComment S) (Stated S)) Grammar.exportStatement := by
  have passed : Gives S (∀ t ∈ ·, Signed S t) Grammar.exportDefault := by
    refine gives_all (gives_unsigned rfl) (gives_alt (gives_passed gives_declaration) (gives_alt ?_ ?_))
    · exact gives_all (gives_passed gives_functionExpression) (gives_unsigned rfl)
    · exact gives_all (gives_passed (gives_inert rfl rfl)) (gives_unsigned rfl)
  refine gives_node (R := (∀ t ∈ ·, Signed S t)) (gives_all (gives_unsigned rfl) ?_) ?_
  · refine gives_alt (gives_unsigned rfl) (gives_alt (gives_unsigned rfl) (gives_alt passed ?_))
    exact gives_alt (gives_passed gives_declaration) (gives_unsigned rfl)
  · rintro s cs signed g ⟨function, rfl | ⟨_, member⟩⟩
    · cases function
    · exact signed g member function

theorem Signed.stated {s : Tree} (signed : Signed S s) (other : s.kind ≠ .exportStatement) :
    Stated S s := by
  rintro g ⟨function, rfl | ⟨exports, _⟩⟩
  · exact signed function
  · exact absurd exports other

theorem Bare.stated {s : Tree} (h : Bare (fun k => k.isInert && k != .exportStatement) s) :
    Stated S s := by
  have kind := h.kind
  rw [Bool.and_eq_true, bne_iff_ne] at kind
  exact (Bare.signed ⟨h.bare, kind.1⟩).stated kind.2

theorem gives_stated (kept : keepsBare (fun k => k.isInert && k != .exportStatement) f = true) :
    Gives S (∀ t ∈ ·, Stated S t) f :=
  (gives_bare _ rfl kept).mono fun _ bare t member => (bare t member).stated

theorem gives_statement : Gives S (∀ t ∈ ·, Stated S t) (.rule .statement) := by
  have comment (t : Tree) (h : IsComment S t) : Stated S t := Bare.stated (h.bare rfl)
  have declaration : Gives S (∀ t ∈ ·, Stated S t) (.rule .declaration) := by
    intro e c d nodes on read t member
    have signed := (gives_declaration e c d nodes on read).all
      (fun t h => Bare.signed (h.bare rfl)) (fun t h => h) t member
    have kind := (gives_bare (· != .exportStatement) rfl rfl e c d nodes on read t member).kind
    exact signed.stated (bne_iff_ne.1 kind)
  refine gives_rule (gives_alt (gives_stated rfl) (gives_alt ?_ (gives_alt (gives_stated rfl) ?_)))
  · exact gives_export.mono fun ts ends => ends.all comment fun t h => h
  · exact gives_alt declaration (gives_stated rfl)

/-- Every function that a text defines has a signature. -/
theorem signature_of_parse? {tree s g : Tree} (parsed : parse? S = some tree)
    (child : s ∈ tree.children) (defines : Defines s g) : HasSignature S g.children := by
  rw [parse?_eq_reads?] at parsed
  obtain ⟨⟨nodes, next⟩, read, rfl⟩ := Option.map_eq_some_iff.1 parsed
  have program : Gives S (∀ t ∈ ·, Stated S t) Grammar.program :=
    gives_all (gives_all (gives_stated rfl) (gives_many gives_statement)) (gives_stated rfl)
  exact program _ (Cursor.ofText S) _ _ rfl read s child g defines

end Statements

end SourceSpecs.Syntax
