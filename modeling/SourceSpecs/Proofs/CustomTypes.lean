import SourceSpecs.Proofs.Answer
import SourceSpecs.Proofs.BatchedHeaders
import SourceSpecs.Proofs.Collector
import SourceSpecs.Proofs.NameOrder
import SourceSpecs.Proofs.Projection
import SourceSpecs.Tool
/-!
The lists of custom types in an answer. They ascend without repeats, hold no type that is built in,
and each of their names stands somewhere in the text that was read.
-/
namespace SourceSpecs

namespace Syntax.Tree

open Text

def Covers (source : List Char) (t : Tree) : Prop :=
  t.span.start < t.span.stop ∧ t.span.stop ≤ source.length

section Covers

variable {source : List Char} {root p c v : Tree} {way : List (Tree × Nat)} {n : String}

theorem covers_child (laid : Laid p) (inside : p.span.stop ≤ source.length) (child : c ∈ p.children) :
    Laid c ∧ Covers source c := by
  have alone := laid.sublist (List.singleton_sublist.2 child)
  exact ⟨laid.child child, alone.2.1, Nat.le_trans alone.2.2 inside⟩

/-- What lies under a node that a text covers is covered as well, the node itself as it may be. -/
theorem covers_of_lies (laid : Laid root) (inside : root.span.stop ≤ source.length)
    (lies : Lies root way v) : v = root ∨ Covers source v := by
  have all : v.span.stop ≤ source.length ∧ (v = root ∨ Covers source v) := by
    induction lies with
    | root => exact ⟨inside, Or.inl rfl⟩
    | child above here ih =>
      have covers := (covers_child (laid_of_lies laid above) ih.1 (List.mem_of_getElem? here)).2
      exact ⟨covers.2, Or.inr covers⟩
  exact all.2

theorem text_of_covers (covers : Covers source v) :
    v.text source ≠ "" ∧ (v.text source).toList <:+: source := by
  rw [text, Span.slice, String.toList_ofList]
  constructor
  · intro empty
    have nothing := congrArg String.length empty
    rw [String.length_ofList, List.length_take, List.length_drop] at nothing
    have := covers.1
    have := covers.2
    change _ = 0 at nothing
    omega
  · exact (List.take_prefix _ _).isInfix.trans (List.drop_suffix _ _).isInfix

theorem covers_of_refers (laid : Laid v) (covers : Covers source v) (refers : Refers source n way v) :
    ∃ name, Covers source name ∧ name.text source = n := by
  have child {p c : Tree} (laid : Laid p) (covers : Covers source p) (member : c ∈ p.children) :=
    covers_child laid covers.2 member
  cases refers with
  | @generic name kind named text =>
    exact ⟨name, (child laid covers (List.mem_of_find?_eq_some named)).2, text⟩
  | qualified kind text => exact ⟨v, covers, text⟩
  | plain kind text free => exact ⟨v, covers, text⟩
  | @bound key mark target kind children single text =>
    exact ⟨target, (child laid covers (by simp [children])).2, text⟩
  | @imported clause list specifier name kind clauseOf listOf specifierOf typeOnly named text =>
    obtain ⟨laid₁, covers₁⟩ := child laid covers (mem_childrenOf clauseOf).1
    obtain ⟨laid₂, covers₂⟩ := child laid₁ covers₁ (mem_childrenOf listOf).1
    obtain ⟨laid₃, covers₃⟩ := child laid₂ covers₂ (mem_childrenOf specifierOf).1
    exact ⟨name, (child laid₃ covers₃ (mem_of_child? named)).2, text⟩

end Covers

/-- The list is canonical, and every name in it comes from the text. -/
structure Clean (source : List Char) (names : List String) : Prop where
  ascending : Ascending names
  custom : ∀ n ∈ names, n ∉ builtinTypes
  slices : ∀ n ∈ names, n ≠ "" ∧ n.toList <:+: source

theorem not_refers_program {source : List Char} {n : String} {way : List (Tree × Nat)} {v : Tree}
    (program : v.kind = .program) : ¬ Refers source n way v := by
  intro refers
  cases refers with
  | generic kind => cases program.symm.trans kind
  | qualified kind => cases program.symm.trans kind
  | plain kind => cases program.symm.trans kind
  | bound kind => cases program.symm.trans kind
  | imported kind => cases program.symm.trans kind

/-- What is collected under a node is clean, be it the whole text or a part of it. -/
theorem clean_customTypes {source : List Char} {t : Tree} (laid : Laid t)
    (inside : t.span.stop ≤ source.length) (part : t.kind = .program ∨ Covers source t) :
    Clean source (t.customTypes source) := by
  refine ⟨ascending_sortNames _, ?_, ?_⟩
  · intro n member
    have custom := (List.mem_filter.1 (mem_sortNames.1 member)).2
    simpa [isBuiltinType] using custom
  · intro n member
    have found := (List.mem_filter.1 (mem_sortNames.1 member)).1
    obtain ⟨way, v, lies, _, there⟩ := (mem_names_iff false).1 found
    have refers := (mem_namesAt_iff (declaredAt_iff laid lies)).1 there
    have covers : Covers source v := by
      rcases covers_of_lies laid inside lies with rfl | covers
      · exact part.resolve_left fun program => not_refers_program program refers
      · exact covers
    obtain ⟨name, covered, rfl⟩ := covers_of_refers (laid_of_lies laid lies) covers refers
    exact text_of_covers covered

theorem program_of_parse? {source : List Char} {tree : Tree} (parsed : parse? source = some tree) :
    tree.kind = .program ∧ tree.span.stop ≤ source.length := by
  rw [parse?_eq_reads?] at parsed
  obtain ⟨⟨nodes, next⟩, read, rfl⟩ := Option.map_eq_some_iff.1 parsed
  refine ⟨rfl, ?_⟩
  obtain ⟨between, whole, offset⟩ := reaches_of_reads? read
  have length := congrArg List.length whole
  rw [List.length_append] at length
  change next.offset ≤ source.length
  change source.length = _ at length
  change next.offset = 0 + between.length at offset
  omega

end Syntax.Tree

open Syntax Syntax.Tree Text

theorem clean_collectTypes (code : String) : Clean (dedent code.toList) (collectTypes code) := by
  unfold collectTypes customTypes?
  dsimp only
  cases parsed : parse? (dedent code.toList) with
  | none => exact ⟨.nil, by simp, by simp⟩
  | some tree =>
    obtain ⟨program, inside⟩ := program_of_parse? parsed
    exact clean_customTypes (laid_of_parse? parsed) inside (Or.inl program)

theorem covers_function {source : List Char} {tree function : Tree}
    (parsed : parse? source = some tree) (member : function ∈ Signature.functionsOf tree) :
    Laid function ∧ Covers source function := by
  obtain ⟨statement, child, rfl⟩ := List.mem_map.1 (List.mem_of_mem_filter member)
  have laid := laid_of_parse? parsed
  have inside := (program_of_parse? parsed).2
  obtain ⟨laid', covers⟩ := covers_child laid inside child
  rw [Signature.exported]
  split
  · cases passed : (statement.child? .declaration <|> statement.child? .value) with
    | none => exact ⟨laid', covers⟩
    | some t => exact covers_child laid' covers.2 (mem_of_child? passed)
  · exact ⟨laid', covers⟩

theorem clean_functionSpecs {source : List Char} {specs : List FunctionSpec}
    (answered : functionSpecs source = .ok specs) : ∀ f ∈ specs, Clean source f.customTypes := by
  rw [functionSpecs] at answered
  split at answered
  · rename_i tree parsed
    obtain rfl := Except.ok.inj answered
    intro f member
    obtain ⟨function, there, rfl⟩ := List.mem_map.1 member
    obtain ⟨laid, covers⟩ := covers_function parsed there
    exact clean_customTypes laid covers.2 (Or.inr covers)
  · cases answered

/-- The text of a declaration has no indent, so an import is read as it is written. -/
theorem clean_importSpec {t : List Char} {d : Declaration} {spec : ImportSpec}
    (member : d ∈ Declaration.scan t) (given : Extraction.importSpec? d = some spec) :
    Clean spec.definition.toList spec.customTypes := by
  obtain ⟨x, v, parts, not_blank, _⟩ := (((Declaration.tiled_scan t).piece d member).2).begins
  have unchanged : dedent d.text.toList = d.text.toList :=
    dedent_eq_self (u := []) parts (Or.inl rfl) not_blank
  have clean := clean_collectTypes d.text
  rw [unchanged] at clean
  unfold Extraction.importSpec? at given
  split at given
  · obtain rfl := Option.some.inj given
    exact clean
  · obtain rfl := Option.some.inj given
    exact clean
  · cases given

def Json.Lists (record : Json) (names : List String) : Prop :=
  ∃ members, record = .object members ∧ members.lookup "custom_types" = some (.strings names)

def WritesAscending (write : List String → Json) : Prop :=
  ∀ names, ∃ written, (write names).Lists written ∧ Ascending written ∧
    (∀ n, n ∈ written ↔ n ∈ names) ∧
    ∀ names', (∀ n, n ∈ names' ↔ n ∈ names) → write names' = write names

theorem sortNames_congr {names names' : List String} (same : ∀ n, n ∈ names' ↔ n ∈ names) :
    sortNames names' = sortNames names := by
  apply (ascending_sortNames names').eq_of_mem_iff (ascending_sortNames names)
  intro n
  rw [mem_sortNames, mem_sortNames, same]

theorem FunctionSpec.lists (f : FunctionSpec) : f.toJson.Lists (sortNames f.customTypes) :=
  ⟨_, rfl, rfl⟩

theorem ImportSpec.lists (i : ImportSpec) : i.toJson.Lists (sortNames i.customTypes) := ⟨_, rfl, rfl⟩

theorem FunctionSpec.writesAscending (f : FunctionSpec) :
    WritesAscending fun names => toJson { f with customTypes := names } := by
  intro names
  refine ⟨sortNames names, lists _, ascending_sortNames names, fun n => mem_sortNames, ?_⟩
  intro names' same
  simp only [toJson, sortNames_congr same]

theorem ImportSpec.writesAscending (i : ImportSpec) :
    WritesAscending fun names => toJson { i with customTypes := names } := by
  intro names
  refine ⟨sortNames names, lists _, ascending_sortNames names, fun n => mem_sortNames, ?_⟩
  intro names' same
  simp only [toJson, sortNames_congr same]

namespace Extraction

open Declaration

/-- The custom types that are answered are canonical and come from the text that was read: for a
    function from all headers as they were closed, for an import from its own text. A record is
    written with the same list however its names are given. -/
theorem custom_types_clean (source code : String) (w : Workspace) :
    (∀ contents, (extract source).result = .ok contents →
      (∀ f ∈ contents.functions, f.toJson.Lists f.customTypes ∧
        Clean (closedFragments (scan (dedent source.toList))) f.customTypes) ∧
      ∀ i ∈ contents.imports, i.toJson.Lists i.customTypes ∧
        Clean i.definition.toList i.customTypes) ∧
    (∀ specs, functionSpecsOf code = .ok specs → ∀ f ∈ specs,
      f.toJson.Lists f.customTypes ∧ Clean (dedent code.toList) f.customTypes) ∧
    (∀ specs, functionSpecs code.toList = .ok specs → ∀ f ∈ specs,
      f.toJson.Lists f.customTypes ∧ Clean code.toList f.customTypes) ∧
    (∃ names, Tool.collectTypes.answer w code =
        .ok (.object [("count", .number names.length), ("custom_types", .strings names)]) ∧
      Clean (dedent code.toList) names) ∧
    (∀ f : FunctionSpec, WritesAscending fun names => { f with customTypes := names }.toJson) ∧
    ∀ i : ImportSpec, WritesAscending fun names => { i with customTypes := names }.toJson := by
  have listed {text : List Char} {specs : List FunctionSpec} (answered : functionSpecs text = .ok specs) :
      ∀ f ∈ specs, f.toJson.Lists f.customTypes ∧ Clean text f.customTypes := by
    intro f member
    have clean := clean_functionSpecs answered f member
    have written := f.lists
    rw [sortNames_of_ascending clean.ascending] at written
    exact ⟨written, clean⟩
  refine ⟨?_, fun specs => listed, fun specs => listed, ⟨collectTypes code, rfl, clean_collectTypes code⟩,
    FunctionSpec.writesAscending, ImportSpec.writesAscending⟩
  intro contents answered
  have functions := functions_of_run source
  rw [answered, signatures_eq] at functions
  refine ⟨listed functions.symm, ?_⟩
  intro i member
  obtain ⟨d, found, given⟩ : ∃ d ∈ scan (dedent source.toList), importSpec? d = some i := by
    rw [extract, ofDeclarations] at answered
    dsimp only at answered
    split at answered
    · obtain rfl := Except.ok.inj answered
      exact List.mem_filterMap.1 member
    · cases answered
  have clean := clean_importSpec found given
  have written := i.lists
  rw [sortNames_of_ascending clean.ascending] at written
  exact ⟨written, clean⟩

def typedImportAndHeader : List Block :=
  [.importFrom "\x7b type Zed, type Ab as Q, type Ab \x7d".toList '\'' "./a".toList true,
    .function "f".toList "a: B.C, b: string | Zed".toList (some "Zed | Ab | Q[]".toList)]

theorem custom_types_of_typedImportAndHeader :
    ∃ contents, (extract (String.ofList (Block.render typedImportAndHeader))).result = .ok contents ∧
      contents.functions.map (·.customTypes) = [["Ab", "B.C", "Q", "Zed"]] ∧
      contents.imports.map (·.customTypes) = [["Ab", "Q", "Zed"]] ∧
      ∀ i ∈ contents.imports, Clean i.definition.toList i.customTypes := by
  have scanned := scan_dedent_render typedImportAndHeader (by decide +kernel) List.mem_cons_self rfl
  have answer := Block.extract_declarationsFrom 0 typedImportAndHeader
  rw [← scanned] at answer
  have functions : functionSpecs (typedImportAndHeader.flatMap Block.closedHeader) =
      .ok [⟨"f", [⟨"a", some "B.C", none⟩, ⟨"b", some "string | Zed", none⟩], "Zed | Ab | Q[]",
        ["Ab", "B.C", "Q", "Zed"]⟩] := by decide +kernel
  rw [functions] at answer
  have clean := (custom_types_clean _ "" ⟨{}, [], {}⟩).1 _ answer
  exact ⟨_, answer, rfl, by decide +kernel, fun i member => (clean.2 i member).2⟩

end Extraction

end SourceSpecs
