import SourceSpecs.Proofs.SignatureShape
import SourceSpecs.Proofs.Trimming
/-!
Parameters as they stand in the text. What is reported of a function is written out in it: the name,
the type and the default value of each parameter, one behind another from the first parameter to the
last, and behind the list of parameters what the function gives back.
-/
namespace SourceSpecs

theorem slice_within {s : Span} {source before part behind : List Char}
    (text : s.slice source = before ++ part ++ behind) :
    Span.slice ⟨s.start + before.length, s.start + before.length + part.length⟩ source = part := by
  have whole : source.drop s.start =
      before ++ part ++ behind ++ (source.drop s.start).drop (s.stop - s.start) := by
    rw [← text, Span.slice, List.take_append_drop]
  rw [Span.slice, ← List.drop_drop, whole, List.append_assoc, List.append_assoc, List.drop_left,
    Nat.add_sub_cancel_left, List.take_left]

theorem length_slice_le (s : Span) (source : List Char) : (s.slice source).length ≤ s.stop - s.start :=
  List.length_take_le _ _

theorem head?_slice {s : Span} {source : List Char} (nonempty : s.start < s.stop) :
    (s.slice source).head? = (source.drop s.start).head? := by
  rw [Span.slice, List.head?_take, if_neg (by omega)]

namespace Syntax

open Text Syntax.Tree Signature

section InOrder

variable {a b : Nat} {ss ss' : List Span}

theorem InOrder.flatMap {α β : Type} {f : α → Span} {g : β → List Span} {xs : List α} {ys : List β}
    (h : InOrder a (xs.map f) b)
    (each : List.Forall₂ (fun x y => InOrder (f x).start (g y) (f x).stop) xs ys) :
    InOrder a (ys.flatMap g) b := by
  induction each generalizing a with
  | nil => exact h
  | cons first _ ih =>
    rw [List.flatMap_cons]
    exact (first.after h.1).append (ih h.2.2)

end InOrder

/-- Where a parameter is written out: its name, its type and its default value. -/
structure Sites where
  name : Span
  type : Option Span
  default : Option Span

def Sites.all (s : Sites) : List Span := s.name :: (s.type.toList ++ s.default.toList)

structure Writes (source : List Char) (c : Tree) (type : String) (site : Span) : Prop where
  text : ∃ before behind, c.span.slice source = ':' :: (before ++ type.toList ++ behind) ∧
    ∀ x ∈ before ++ behind, isBlank x = true
  trimmed : Trimmed isBlank type.toList
  slice : site.slice source = type.toList
  inside : c.span.start < site.start ∧ site.start < site.stop ∧ site.stop ≤ c.span.stop

inductive Annotated (source : List Char) (t : Tree) : Option String → Option Span → Prop where
  | bare (none_there : t.childrenOf .typing = []) : Annotated source t none none
  | typed {c : Tree} {type : String} {site : Span} (only : t.childrenOf .typing = [c])
      (written : Writes source c type site) : Annotated source t (some type) (some site)

/-- A parameter is reported as it stands in the text. -/
structure Reports (source : List Char) (t : Tree) (p : Param) (s : Sites) : Prop where
  name : s.name.slice source = p.name.toList
  type : Annotated source t p.type s.type
  default : s.default.map (fun v => String.ofList (v.slice source)) = p.default
  order : InOrder t.span.start s.all t.span.stop
  value : s.default = (t.child? .value).map Tree.span
  pattern : ∃ c ∈ t.children, c.field = some .pattern ∧ c.span.start ≤ s.name.start ∧
    s.name.stop ≤ c.span.stop ∧ (c.kind ≠ .restPattern → s.name = c.span)
  rest : (∃ c ∈ t.children, c.kind = .restPattern) → ¬ "...".toList <+: p.name.toList

/-- A function is reported with all its parameters in their order, and with what it gives back, as they
    stand in the text. -/
def ReportsFunction (source : List Char) (g : Tree) (f : FunctionSpec) : Prop :=
  ∃ list, g.childrenOf .parameters = [list] ∧ list.span.stop ≤ source.length ∧
    (∃ entries : List (Param × Sites), entries.map Prod.fst = f.params ∧
      List.Forall₂ (fun t entry => Reports source t entry.1 entry.2) (list.childrenOf .parameter)
        entries ∧
      InOrder list.span.start (entries.flatMap fun entry => entry.2.all) list.span.stop) ∧
    ∃ type site, Annotated source g type site ∧ f.returnType = type.getD "void" ∧
      ∀ s ∈ site, list.span.stop ≤ s.start

section Annotations

variable {source : List Char} {c t : Tree}

theorem exists_writes (holds : HoldsType source c) :
    ∃ site, Writes source c (typingText source c) site := by
  obtain ⟨u, text, x, inside, shown⟩ := holds.text
  have mark : isBlank x = false := by simpa [isShown] using shown
  have trimmed : Trimmed isBlank (trimBy isBlank u) := trimmed_trimBy ⟨x, inside, mark⟩
  obtain ⟨before, behind, parts, blank⟩ := exists_around_trimBy isBlank u
  generalize trimBy isBlank u = type at trimmed parts
  rw [parts] at text
  have reported : (typingText source c).toList = type := by
    rw [typingText_of_slice text blank trimmed, String.toList_ofList]
  have part : c.span.slice source = (':' :: before) ++ type ++ behind := text
  have slice := slice_within part
  have bound := length_slice_le c.span source
  obtain ⟨y, v, first, _⟩ := trimmed.first
  rw [part, first] at bound
  simp only [List.length_append, List.length_cons] at bound
  rw [← reported] at text trimmed slice
  refine ⟨_, ⟨before, behind, text, blank⟩, trimmed, slice, ?_⟩
  rw [reported, first]
  simp only [List.length_cons]
  omega

/-- Where at most one node right under another is an annotation, it tells the type. -/
theorem exists_annotated {x : Field} {typing : Option Tree} (only : t.childrenOf .typing = typing.toList)
    (typed : ∀ c ∈ typing, IsTyping source x c) :
    ∃ site, Annotated source t (typing.map (typingText source)) site ∧
      List.Forall₂ (fun c s => InOrder (Tree.span c).start [s] c.span.stop) typing.toList site.toList := by
  cases typing with
  | none => exact ⟨none, .bare only, .nil⟩
  | some c =>
    obtain ⟨site, writes⟩ := exists_writes (typed c rfl).holds
    obtain ⟨start, nonempty, stop⟩ := writes.inside
    exact ⟨some site, .typed only writes, .cons ⟨Nat.le_of_lt start, nonempty, stop⟩ .nil⟩

end Annotations

section Parameters

variable {source : List Char} {t pattern : Tree} {typing value : Option Tree} {ts : List Tree}

theorem find?_bare {kinds : Kind → Bool} (bare : ∀ c ∈ ts, Bare kinds c) (x : Field) :
    ts.find? (fun c => c.field == some x) = none := by
  rw [List.find?_eq_none]
  intro c member
  simp [(bare c member).bare]

theorem find?_part {last : Option Tree} {x : Field} (part : ∀ c ∈ last, c.field = some x) (y : Field) :
    last.toList.find? (fun c => c.field == some y) = if x = y then last else none := by
  cases last with
  | none => simp
  | some c =>
    by_cases same : x = y
    · simp [part c rfl, same]
    · simp [part c rfl, same]

theorem filter_kind_eq_nil {k : Kind} (others : ∀ c ∈ ts, c.kind ≠ k) :
    ts.filter (fun c => c.kind == k) = [] := by
  rw [List.filter_eq_nil_iff]
  intro c member
  simpa using others c member

theorem filter_kind_eq_self {k : Kind} (all : ∀ c ∈ ts, c.kind = k) :
    ts.filter (fun c => c.kind == k) = ts := by
  rw [List.filter_eq_self]
  intro c member
  simpa using all c member

structure ParameterParts (source : List Char) (t pattern : Tree) (typing value : Option Tree) : Prop where
  named : IsPattern source pattern
  typed : ∀ c ∈ typing, IsTyping source .typing c
  order : (pattern :: (typing.toList ++ value.toList)).Sublist t.children
  pattern_eq : t.child? .pattern = some pattern
  typing_eq : t.child? .typing = typing
  value_eq : t.child? .value = value
  annotations : t.childrenOf .typing = typing.toList
  rest : ∀ c ∈ t.children, c.kind = .restPattern → c = pattern

theorem exists_parameterParts (parts : HasParts source t.children) :
    ∃ pattern typing value, ParameterParts source t pattern typing value := by
  generalize listed : t.children = cs at parts
  cases parts with
  | @mk front middle gap pattern typing value beside named typed valued =>
    simp only [List.forall_mem_append] at beside
    obtain ⟨⟨bare_front, bare_middle⟩, bare_gap⟩ := beside
    -- A look-up passes over the nodes that play no part, and stops at the one part that it is for.
    have in_front := find?_bare bare_front
    have in_middle := find?_bare bare_middle
    have in_gap := find?_bare bare_gap
    have in_typing := find?_part fun c here => (typed c here).part
    have in_value := find?_part fun c here => (valued c here).part
    have child (x : Field) : t.child? x = (front ++ pattern :: (middle ++ typing.toList ++
        (gap ++ value.toList))).find? (fun c => c.field == some x) := by rw [child?, listed]
    have kinds {ts : List Tree} (bare : ∀ c ∈ ts, Bare Kind.isBeside c) :
        ∀ c ∈ ts, c.kind ≠ .typing ∧ c.kind ≠ .restPattern :=
      fun c member => Kind.isBeside_iff.1 (bare c member).kind
    have typing_kind : ∀ c ∈ typing.toList, c.kind = .typing := fun c member =>
      (typed c (Option.mem_toList.1 member)).holds.kind
    have value_kind : ∀ c ∈ value.toList, c.kind ≠ .typing ∧ c.kind ≠ .restPattern := fun c member =>
      Kind.isBeside_iff.1 (valued c (Option.mem_toList.1 member)).kind
    refine ⟨pattern, typing, value, named, typed, ?_, ?_, ?_, ?_, ?_, ?_⟩
    · rw [listed]
      refine List.Sublist.trans (.cons_cons pattern ?_) (List.sublist_append_right front _)
      exact .append (List.sublist_append_right middle _) (List.sublist_append_right gap _)
    · simp [child, in_front, named.part]
    · simp [child, in_front, in_middle, in_gap, in_typing, in_value, named.part]
    · simp [child, in_front, in_middle, in_gap, in_typing, in_value, named.part]
    · have others {ts : List Tree} (bare : ∀ c ∈ ts, Bare Kind.isBeside c) :=
        filter_kind_eq_nil fun c member => (kinds bare c member).1
      have no_value : value.toList.filter (fun c => c.kind == .typing) = [] :=
        filter_kind_eq_nil fun c member => (value_kind c member).1
      have all_typing : typing.toList.filter (fun c => c.kind == .typing) = typing.toList :=
        filter_kind_eq_self typing_kind
      simp [childrenOf, listed, others bare_front, others bare_middle, others bare_gap, no_value,
        all_typing, named.kind]
    · have other {ts : List Tree} (none_rest : ∀ c ∈ ts, c.kind ≠ .typing ∧ c.kind ≠ .restPattern) :
          ∀ c ∈ ts, c.kind = .restPattern → c = pattern :=
        fun c member same => absurd same (none_rest c member).2
      rw [listed]
      simp only [List.forall_mem_append, List.forall_mem_cons]
      refine ⟨other (kinds bare_front), fun _ => trivial, ⟨other (kinds bare_middle), ?_⟩,
        other (kinds bare_gap), other value_kind⟩
      intro c member rest
      rw [typing_kind c member] at rest
      cases rest

structure IsNamedAt (source : List Char) (pattern : Tree) (site : Span) : Prop where
  within : InOrder pattern.span.start [site] pattern.span.stop
  slice : site.slice source = (patternText source pattern).toList
  whole : pattern.kind ≠ .restPattern → site = pattern.span
  pointless : pattern.kind = .restPattern → ¬ "...".toList <+: (patternText source pattern).toList

theorem exists_isNamedAt_rest (laid : Laid pattern) (rest : pattern.kind = .restPattern)
    (named : NamesRest source pattern) : ∃ site, IsNamedAt source pattern site := by
  obtain ⟨first, more, children, pointless⟩ := named
  have text : patternText source pattern = first.text source := by
    rw [patternText, rest, children]
  have member : first ∈ pattern.children :=
    List.mem_of_mem_filter (children ▸ List.mem_cons_self : first ∈ pattern.children.filter isNamed)
  have within := laid.sublist (List.singleton_sublist.2 member)
  have slice : first.span.slice source = (patternText source pattern).toList := by
    rw [text, Tree.text, String.toList_ofList]
  refine ⟨first.span, within, slice, fun other => absurd rest other, ?_⟩
  intro _ points
  obtain ⟨u, whole⟩ := points
  rw [← slice] at whole
  refine pointless ?_
  rw [← head?_slice within.2.1, ← whole]
  rfl

theorem isNamedAt_whole (nonempty : pattern.span.start < pattern.span.stop)
    (other : pattern.kind ≠ .restPattern) : IsNamedAt source pattern pattern.span := by
  refine ⟨⟨Nat.le_refl _, nonempty, Nat.le_refl _⟩, ?_, fun _ => rfl, fun rest => absurd rest other⟩
  rw [patternText]
  split
  · rename_i rest _
    exact absurd rest other
  · rw [Tree.text, String.toList_ofList]

theorem exists_isNamedAt (laid : Laid pattern) (nonempty : pattern.span.start < pattern.span.stop)
    (named : IsPattern source pattern) : ∃ site, IsNamedAt source pattern site := by
  by_cases rest : pattern.kind = .restPattern
  · exact exists_isNamedAt_rest laid rest (named.rest rest)
  · exact ⟨pattern.span, isNamedAt_whole nonempty rest⟩

/-- The parts of a parameter are reported as they stand in the text. -/
theorem reports_of_parts (laid : Laid t) (parts : ParameterParts source t pattern typing value) :
    ∃ sites, Reports source t (paramOf source t) sites := by
  have order := laid.sublist parts.order
  have member : pattern ∈ t.children := parts.order.subset List.mem_cons_self
  obtain ⟨name, named⟩ := exists_isNamedAt (laid.child member) order.2.1 parts.named
  obtain ⟨type, annotated, type_within⟩ := exists_annotated parts.annotations parts.typed
  have value_within : List.Forall₂ (fun c s => InOrder (Tree.span c).start [s] c.span.stop)
      value.toList (value.map Tree.span).toList := by
    cases value with
    | none => exact .nil
    | some v =>
      have nonempty := (order.within v.span (by simp)).2
      exact .cons ⟨Nat.le_refl _, nonempty, Nat.le_refl _⟩ .nil
  have sites_order := order.flatMap (g := fun s => [s])
    (.cons named.within (List.rel_append type_within value_within))
  rw [List.flatMap_singleton'] at sites_order
  refine ⟨⟨name, type, value.map Tree.span⟩, ?_⟩
  have typing_eq : (paramOf source t).type = typing.map (typingText source) := by
    rw [paramOf, parts.typing_eq]
  have name_eq : (paramOf source t).name = patternText source pattern := by
    rw [paramOf, parts.pattern_eq]
    rfl
  refine ⟨?_, ?_, ?_, sites_order, ?_, ?_, ?_⟩
  · rw [name_eq, named.slice]
  · rw [typing_eq]
    exact annotated
  · rw [paramOf, parts.value_eq]
    cases value <;> rfl
  · rw [parts.value_eq]
  · have part := parts.named.part
    exact ⟨pattern, member, part, named.within.1, named.within.2.2, named.whole⟩
  · rintro ⟨c, child, kind⟩
    obtain rfl := parts.rest c child kind
    rw [name_eq]
    exact named.pointless kind

end Parameters

section Functions

variable {source : List Char} {g list : Tree}

theorem reports_of_list (laid : Laid list) (parameters : ListsParameters source list) :
    ∃ entries : List (Param × Sites),
      entries.map Prod.fst = (list.childrenOf .parameter).map (paramOf source) ∧
      List.Forall₂ (fun t entry => Reports source t entry.1 entry.2) (list.childrenOf .parameter)
        entries ∧
      InOrder list.span.start (entries.flatMap fun entry => entry.2.all) list.span.stop := by
  have each : ∀ t ∈ list.childrenOf .parameter, ∃ entry : Param × Sites,
      paramOf source t = entry.1 ∧ Reports source t entry.1 entry.2 := by
    intro t member
    obtain ⟨child, kind⟩ := mem_childrenOf member
    obtain ⟨pattern, typing, value, parts⟩ := exists_parameterParts (parameters.parts t child kind)
    obtain ⟨sites, reports⟩ := reports_of_parts (laid.child child) parts
    exact ⟨(paramOf source t, sites), rfl, reports⟩
  obtain ⟨entries, all⟩ := exists_forall₂_iff.2 each
  refine ⟨entries, ?_, all.imp fun _ _ h => h.2, ?_⟩
  · symm
    rw [← List.forall₂_eq_eq_eq, List.forall₂_map_left_iff, List.forall₂_map_right_iff]
    exact all.imp fun _ _ h => h.1
  · exact (laid.sublist List.filter_sublist).flatMap (all.imp fun _ _ h => h.2.order)

structure SignatureParts (source : List Char) (g list : Tree) (result : Option Tree) : Prop where
  parameters : ListsParameters source list
  returned : ∀ c ∈ result, IsTyping source .returnType c
  order : (list :: result.toList).Sublist g.children
  list_eq : g.child? .parameters = some list
  result_eq : g.child? .returnType = result
  lists : g.childrenOf .parameters = [list]
  annotations : g.childrenOf .typing = result.toList

theorem exists_signatureParts (signature : HasSignature source g.children) :
    ∃ list result, SignatureParts source g list result := by
  generalize listed : g.children = cs at signature
  cases signature with
  | @mk front middle behind list result aside part parameters returned =>
    simp only [List.forall_mem_append] at aside
    obtain ⟨⟨aside_front, aside_middle⟩, aside_behind⟩ := aside
    have kinds {ts : List Tree} (aside : ∀ c ∈ ts, Aside c) :
        ∀ c ∈ ts, c.kind ≠ .parameters ∧ c.kind ≠ .typing :=
      fun c member => Kind.isAside_iff.1 (aside c member).kind
    have no_list {ts : List Tree} (aside : ∀ c ∈ ts, Aside c) :=
      filter_kind_eq_nil fun c member => (kinds aside c member).1
    have no_typing {ts : List Tree} (aside : ∀ c ∈ ts, Aside c) :=
      filter_kind_eq_nil fun c member => (kinds aside c member).2
    have no_result {ts : List Tree} (aside : ∀ c ∈ ts, Aside c) :
        ts.find? (fun c => c.field == some .returnType) = none :=
      List.find?_eq_none.2 fun c member => by simpa using (aside c member).part.2
    have result_kind : ∀ c ∈ result.toList, c.kind = .typing := fun c member =>
      (returned c (Option.mem_toList.1 member)).holds.kind
    refine ⟨list, result, parameters, returned, ?_, ?_, ?_, ?_, ?_⟩
    · rw [listed, List.append_assoc]
      refine List.Sublist.trans (.cons_cons list ?_) (List.sublist_append_right front _)
      exact (List.sublist_append_left _ behind).trans (List.sublist_append_right middle _)
    · have in_front : front.find? (fun c => c.field == some .parameters) = none :=
        List.find?_eq_none.2 fun c member => by simpa using (aside_front c member).part.1
      simp [child?, listed, in_front, part]
    · have in_result := find?_part fun c here => (returned c here).part
      simp [child?, listed, no_result aside_front, no_result aside_middle, no_result aside_behind, part,
        in_result]
    · have in_result : result.toList.filter (fun c => c.kind == .parameters) = [] :=
        filter_kind_eq_nil fun c member same => by
          rw [result_kind c member] at same
          cases same
      simp [childrenOf, listed, no_list aside_front, no_list aside_middle, no_list aside_behind, in_result,
        parameters.kind]
    · simp [childrenOf, listed, no_typing aside_front, no_typing aside_middle, no_typing aside_behind,
        filter_kind_eq_self result_kind, parameters.kind]

theorem reportsFunction_of_signature (laid : Laid g) (inside : g.span.stop ≤ source.length)
    (signature : HasSignature source g.children) : ReportsFunction source g (specOf source g) := by
  obtain ⟨list, result, parts⟩ := exists_signatureParts signature
  have member : list ∈ g.children := parts.order.subset List.mem_cons_self
  have order := laid.sublist parts.order
  obtain ⟨laid_list, covered⟩ := covers_child laid inside member
  obtain ⟨entries, reported, each, within⟩ := reports_of_list laid_list parts.parameters
  obtain ⟨site, annotated, site_within⟩ := exists_annotated parts.annotations parts.returned
  refine ⟨list, parts.lists, covered.2, ⟨entries, ?_, each, within⟩, _, site, annotated, ?_, ?_⟩
  · rw [reported, specOf, paramsOf, parts.list_eq]
  · rw [specOf, parts.result_eq]
    cases result <;> rfl
  · intro s here
    obtain ⟨c, returns, inside_result⟩ := exists_of_forall₂ site_within.flip (Option.mem_toList.2 here)
    have behind := (order.2.2.within c.span (List.mem_map_of_mem returns)).1
    exact Nat.le_trans behind inside_result.1

theorem reportsFunction_of_functionSpecs {specs : List FunctionSpec}
    (answered : functionSpecs source = .ok specs) :
    ∃ tree, parse? source = some tree ∧
      (∀ g ∈ functionsOf tree, ∃ s ∈ tree.children, Defines s g) ∧
      List.Forall₂ (ReportsFunction source) (functionsOf tree) specs := by
  obtain ⟨tree, parsed, rfl⟩ := functionSpecs_eq_ok_iff.1 answered
  have defined : ∀ g ∈ functionsOf tree, ∃ s ∈ tree.children, Defines s g := by
    intro g member
    rw [functionsOf, filter_functions_eq] at member
    obtain ⟨s, child, found⟩ := List.mem_filterMap.1 member
    exact ⟨s, child, (function?_iff (shaped_of_parse? parsed child)).1 found⟩
  refine ⟨tree, parsed, defined, ?_⟩
  show List.Forall₂ _ (functionsOf tree) ((functionsOf tree).map (specOf source))
  rw [List.forall₂_map_right_iff, List.forall₂_same]
  intro g member
  obtain ⟨s, child, defines⟩ := defined g member
  obtain ⟨laid, covers⟩ := covers_function parsed member
  exact reportsFunction_of_signature laid covers.2 (signature_of_parse? parsed child defines)

/-- The parameters that are reported are those of each function that the text defines, in their order,
    each written out in the text that was read, whether or not that text had an indent to lose. -/
theorem params_written (code : String) {specs : List FunctionSpec} :
    (functionSpecsOf code = .ok specs → ∃ tree, parse? (dedent code.toList) = some tree ∧
      (∀ g ∈ functionsOf tree, ∃ s ∈ tree.children, Defines s g) ∧
      List.Forall₂ (ReportsFunction (dedent code.toList)) (functionsOf tree) specs) ∧
    (functionSpecs code.toList = .ok specs → ∃ tree, parse? code.toList = some tree ∧
      (∀ g ∈ functionsOf tree, ∃ s ∈ tree.children, Defines s g) ∧
      List.Forall₂ (ReportsFunction code.toList) (functionsOf tree) specs) :=
  ⟨reportsFunction_of_functionSpecs, reportsFunction_of_functionSpecs⟩

def sampleParameters : String :=
  "  function f(é: Ä = (q: Q) => 1, \x7b a, b \x7d :  A<B> , a?: string, ...rest: C[] ) :  /* d */ D \x7b\x7d\n"

theorem params_of_sampleParameters :
    ∃ specs tree, functionSpecsOf sampleParameters = .ok specs ∧
      specs.map (·.params) = [[⟨"é", some "Ä", some "(q: Q) => 1"⟩, ⟨"\x7b a, b \x7d", some "A<B>", none⟩,
        ⟨"a", some "string", none⟩, ⟨"rest", some "C[]", none⟩]] ∧
      parse? (dedent sampleParameters.toList) = some tree ∧
      List.Forall₂ (ReportsFunction (dedent sampleParameters.toList)) (functionsOf tree) specs := by
  have answered : functionSpecsOf sampleParameters = .ok [⟨"f", [⟨"é", some "Ä", some "(q: Q) => 1"⟩,
      ⟨"\x7b a, b \x7d", some "A<B>", none⟩, ⟨"a", some "string", none⟩, ⟨"rest", some "C[]", none⟩],
      "/* d */ D", ["A", "C", "D", "Q", "Ä"]⟩] := by decide +kernel
  obtain ⟨tree, parsed, _, reports⟩ := (params_written sampleParameters).1 answered
  exact ⟨_, tree, answered, rfl, parsed, reports⟩

end Functions

end Syntax

end SourceSpecs
