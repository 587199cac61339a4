import SourceSpecs.Proofs.CustomTypes
import SourceSpecs.Proofs.ExportShape
import SourceSpecs.Proofs.TypeArguments
/-!
The custom types of the functions in a text and those of the text as a whole. The functions are found
among the statements of the text, bare or exported, and each is collected from for itself. What it
refers to is among the custom types of the text; besides functions only decorators add to these,
where the text consists of functions and comments.
-/
namespace SourceSpecs.Syntax

open Text Signature

namespace Tree

section Names

variable {source : List Char} {n : String} {root c v : Tree} {way : List (Tree × Nat)}

theorem mem_customTypes_iff_names :
    n ∈ v.customTypes source ↔ n ∈ v.names source false ∧ n ∉ builtinTypes := by
  rw [customTypes, mem_sortNames, List.mem_filter]
  simp [isBuiltinType]

theorem names_declared (declared : Bool) (other : v.kind ≠ .typeName) :
    v.names source declared = v.names source false := by
  have same : namesAt source declared v = namesAt source false v := by
    rw [namesAt, namesAt, ownNames, ownNames]
    split
    · rfl
    · rfl
    · split
      · exact absurd ‹_› other
      · rfl
      · rfl
      · rfl
  cases closed : v.isClosed with
  | true => rw [names_closed declared closed, names_closed false closed, same]
  | false => rw [names_open declared closed, names_open false closed, same]

theorem customTypes_subset_of_lies (lies : Lies root way v) (other : v.kind ≠ .typeName)
    (visited : ∀ above ∈ way, above.1.isClosed = false) :
    v.customTypes source ⊆ root.customTypes source := by
  intro n member
  rw [mem_customTypes_iff_names] at member ⊢
  refine ⟨mem_names_of_lies false lies visited ?_, member.2⟩
  rw [names_declared _ other]
  exact member.1

theorem mem_namesOfAll_none {cs : List Tree} :
    n ∈ namesOfAll source none cs ↔ ∃ c ∈ cs, n ∈ c.names source false := by
  induction cs with
  | nil => simp [namesOfAll]
  | cons c cs ih => simp [namesOfAll, ih]

/-- A node that names nothing by itself and is no declaration adds what the nodes under it do. -/
theorem mem_customTypes_iff_below (visited : v.isClosed = false)
    (silent : namesAt source false v = []) (declares : v.kind.declaresType = false) :
    n ∈ v.customTypes source ↔ ∃ c ∈ v.children, n ∈ c.customTypes source := by
  have unnamed : v.declaredName? = none := by simp [declaredName?, declares]
  simp only [mem_customTypes_iff_names, names_open false visited, silent, unnamed,
    List.nil_append, mem_namesOfAll_none]
  constructor
  · rintro ⟨⟨c, child, named⟩, custom⟩
    exact ⟨c, child, named, custom⟩
  · rintro ⟨c, child, named, custom⟩
    exact ⟨⟨c, child, named⟩, custom⟩

theorem Plain.customTypes (h : c.Plain) (member : n ∈ c.customTypes source) :
    c.kind = .decorator := by
  refine h.decorates.resolve_right ?_
  rintro ⟨leaf, kind⟩
  have other : c.isClosed = false ∧ namesAt source false c = [] ∧ c.kind.declaresType = false := by
    rcases kind with kind | unnamed
    · simp [isClosed, namesAt, ownNames, kind, Kind.declaresType]
    · rw [isNamed] at unnamed
      split at unnamed
      · rename_i word
        simp [isClosed, namesAt, ownNames, word, Kind.declaresType]
      · rename_i mark
        simp [isClosed, namesAt, ownNames, mark, Kind.declaresType]
      · cases unnamed
  obtain ⟨below, child, _⟩ := (mem_customTypes_iff_below other.1 other.2.1 other.2.2).1 member
  rw [leaf] at child
  cases child

end Names

def Defines (s g : Tree) : Prop :=
  isFunction g = true ∧ (g = s ∨ s.kind = .exportStatement ∧ g ∈ s.children)

def function? (s : Tree) : Option Tree :=
  if isFunction (exported s) then some (exported s) else none

section Defines

variable {source : List Char} {n : String} {s g t v : Tree} {before after : List Tree}

theorem exported_of_passes (kind : s.kind = .exportStatement)
    (children : s.children = before ++ t :: after)
    (part : t.field = some .declaration ∨ t.field = some .value)
    (plain : ∀ c ∈ before ++ after, c.Plain) : exported s = t := by
  have bare (x : Field) (cs : List Tree) (inside : cs ⊆ before ++ after) :
      cs.find? (fun c => c.field == some x) = none := by
    rw [List.find?_eq_none]
    intro c member
    simp [(plain c (inside member)).bare]
  have front (x : Field) := bare x before (List.subset_append_left before after)
  have back (x : Field) := bare x after (List.subset_append_right before after)
  rw [exported, if_pos (beq_iff_eq.2 kind), child?, child?, children]
  rcases part with part | part <;> simp [List.find?_append, front, back, part]

theorem exported_of_keeps (others : ∀ c ∈ s.children, c.field = none ∧ isFunction c = false) :
    exported s = s := by
  have bare (x : Field) : s.child? x = none := by
    rw [child?, List.find?_eq_none]
    intro c member
    simp [(others c member).1]
  rw [exported, bare, bare]
  split <;> rfl

theorem not_function_export (kind : s.kind = .exportStatement) : isFunction s = false := by
  rw [isFunction, kind]
  rfl

theorem exported_iff (shaped : s.Shaped) (kind : s.kind = .exportStatement)
    (function : isFunction g = true) : exported s = g ↔ g ∈ s.children := by
  have exports := shaped.exports kind
  generalize listed : s.children = cs at exports
  cases exports with
  | @passes before after t part plain =>
    rw [exported_of_passes kind listed part plain]
    constructor
    · rintro rfl
      simp
    · intro member
      by_contra other
      have around : g ∈ before ++ after := by
        have apart : g ≠ t := fun same => other same.symm
        simpa [apart] using member
      have none_of := (plain g around).not_function
      rw [function] at none_of
      cases none_of
  | keeps others =>
    rw [← listed] at others ⊢
    rw [exported_of_keeps others]
    constructor
    · rintro rfl
      rw [not_function_export kind] at function
      cases function
    · intro member
      rw [(others g member).2] at function
      cases function

theorem function?_iff (shaped : s.Shaped) : s.function? = some g ↔ Defines s g := by
  have found : s.function? = some g ↔ isFunction g = true ∧ exported s = g := by
    rw [function?]
    split
    · rename_i function
      rw [Option.some.injEq]
      constructor
      · rintro rfl
        exact ⟨function, rfl⟩
      · exact And.right
    · rename_i other
      simp only [reduceCtorEq, false_iff]
      rintro ⟨function, rfl⟩
      exact other function
  rw [found, Defines]
  refine and_congr_right fun function => ?_
  by_cases kind : s.kind = .exportStatement
  · rw [exported_iff shaped kind function]
    constructor
    · intro member
      exact Or.inr ⟨kind, member⟩
    · rintro (rfl | ⟨_, member⟩)
      · rw [not_function_export kind] at function
        cases function
      · exact member
  · rw [exported, if_neg (by simpa using kind)]
    simp [kind, eq_comm]

theorem filter_functions_eq (statements : List Tree) :
    (statements.map exported).filter isFunction = statements.filterMap function? := by
  induction statements with
  | nil => rfl
  | cons s rest ih =>
    rw [List.map_cons, List.filter_cons, List.filterMap_cons, ih, function?]
    split <;> rfl

theorem not_typeName_of_function (function : isFunction g = true) : g.kind ≠ .typeName := by
  intro kind
  rw [isFunction, kind] at function
  cases function

/-- The custom types of a statement that defines a function are those of the function, and those of
    the decorators before it. -/
theorem mem_customTypes_of_defines (shaped : s.Shaped) (defines : Defines s g) :
    n ∈ s.customTypes source ↔ n ∈ g.customTypes source ∨
      s.kind = .exportStatement ∧ ∃ d ∈ s.children, d.kind = .decorator ∧ n ∈ d.customTypes source := by
  obtain ⟨function, rfl | ⟨kind, member⟩⟩ := defines
  · have other : g.kind ≠ .exportStatement := by
      intro kind
      rw [not_function_export kind] at function
      cases function
    simp [other]
  · have exports := shaped.exports kind
    rw [mem_customTypes_iff_below (by simp [isClosed, kind]) (by simp [namesAt, ownNames, kind])
      (by rw [kind]; rfl)]
    constructor
    · rintro ⟨c, child, named⟩
      by_cases same : c = g
      · exact Or.inl (same ▸ named)
      · refine Or.inr ⟨kind, c, child, ?_, named⟩
        generalize s.children = cs at exports member child
        cases exports with
        | @passes before after t part plain =>
          have around {x : Tree} (child : x ∈ before ++ t :: after) : x = t ∨ x.Plain := by
            by_cases here : x = t
            · exact Or.inl here
            · exact Or.inr (plain x (by simpa [here] using child))
          rcases around member with rfl | plain_g
          · exact ((around child).resolve_left same).customTypes named
          · rw [plain_g.not_function] at function
            cases function
        | keeps others =>
          rw [(others g member).2] at function
          cases function
    · rintro (named | ⟨_, d, child, _, named⟩)
      · exact ⟨g, member, named⟩
      · exact ⟨d, child, named⟩

theorem lies_of_defines {tree : Tree} (program : tree.kind = .program) (child : s ∈ tree.children)
    (defines : Defines s g) :
    ∃ way, Lies tree way g ∧ ∀ above ∈ way, above.1.isClosed = false := by
  obtain ⟨i, here⟩ := List.mem_iff_getElem?.1 child
  have lies : Lies tree [(tree, i)] s := .child .root here
  have open_tree : tree.isClosed = false := by simp [isClosed, program]
  obtain ⟨_, rfl | ⟨kind, member⟩⟩ := defines
  · exact ⟨_, lies, by simp [open_tree]⟩
  · obtain ⟨j, there⟩ := List.mem_iff_getElem?.1 member
    exact ⟨_, lies.child there, by simp [isClosed, kind, program]⟩

end Defines

def below? : Tree → List Nat → Option Tree
  | t, [] => some t
  | t, i :: rest => t.children[i]?.bind fun c => c.below? rest

theorem lies_of_below? {t v : Tree} {places : List Nat} (found : t.below? places = some v) :
    ∃ way, Lies t way v := by
  induction places generalizing t with
  | nil =>
    obtain rfl := Option.some.inj found
    exact ⟨[], .root⟩
  | cons i rest ih =>
    obtain ⟨c, here, there⟩ := Option.bind_eq_some_iff.1 found
    obtain ⟨way, lies⟩ := ih there
    exact ⟨_, lies.under here⟩

section Collect

variable {code : String} {specs : List FunctionSpec} {tree : Tree}

theorem parse?_of_functionSpecsOf (answered : functionSpecsOf code = .ok specs) :
    ∃ tree, parse? (dedent code.toList) = some tree ∧
      specs = (tree.children.filterMap function?).map (specOf (dedent code.toList)) := by
  rw [functionSpecsOf, functionSpecs] at answered
  split at answered
  · rename_i tree parsed
    obtain rfl := Except.ok.inj answered
    exact ⟨tree, parsed, by rw [functionsOf, filter_functions_eq]⟩
  · cases answered

/-- The functions that are reported are those that statements of the text define, in their order. -/
theorem mem_functionSpecs_iff (parsed : parse? (dedent code.toList) = some tree) {f : FunctionSpec} :
    f ∈ (tree.children.filterMap function?).map (specOf (dedent code.toList)) ↔
      ∃ s ∈ tree.children, ∃ g, Defines s g ∧ specOf (dedent code.toList) g = f := by
  simp only [List.mem_map, List.mem_filterMap]
  constructor
  · rintro ⟨g, ⟨s, child, found⟩, rfl⟩
    exact ⟨s, child, g, (function?_iff (shaped_of_parse? parsed child)).1 found, rfl⟩
  · rintro ⟨s, child, g, defines, rfl⟩
    exact ⟨g, ⟨s, child, (function?_iff (shaped_of_parse? parsed child)).2 defines⟩, rfl⟩

theorem mem_collectTypes_iff_statement (parsed : parse? (dedent code.toList) = some tree)
    (n : String) : n ∈ collectTypes code ↔
      ∃ s ∈ tree.children, n ∈ s.customTypes (dedent code.toList) := by
  have program := (program_of_parse? parsed).1
  rw [collectTypes_of_parse? parsed, mem_customTypes_iff_below (by simp [isClosed, program])
    (by simp [namesAt, ownNames, program]) (by rw [program]; rfl)]

/-- A text of functions and comments has the custom types of its functions and those of the
    decorators before them. -/
theorem mem_collectTypes_of_functions (parsed : parse? (dedent code.toList) = some tree)
    (functions : ∀ s ∈ tree.children, s.kind = .comment ∨ ∃ g, Defines s g) (n : String) :
    n ∈ collectTypes code ↔
      (∃ s ∈ tree.children, ∃ g, Defines s g ∧ n ∈ g.customTypes (dedent code.toList)) ∨
      ∃ s ∈ tree.children, s.kind = .exportStatement ∧
        ∃ d ∈ s.children, d.kind = .decorator ∧ n ∈ d.customTypes (dedent code.toList) := by
  rw [mem_collectTypes_iff_statement parsed]
  constructor
  · rintro ⟨s, child, named⟩
    have shaped := shaped_of_parse? parsed child
    rcases functions s child with comment | ⟨g, defines⟩
    · rw [mem_customTypes_iff_below (by simp [isClosed, comment])
        (by simp [namesAt, ownNames, comment]) (by rw [comment]; rfl)] at named
      obtain ⟨c, below, _⟩ := named
      rw [shaped.comment comment] at below
      cases below
    · rcases (mem_customTypes_of_defines shaped defines).1 named with own | decorated
      · exact Or.inl ⟨s, child, g, defines, own⟩
      · exact Or.inr ⟨s, child, decorated⟩
  · rintro (⟨s, child, g, defines, own⟩ | ⟨s, child, kind, d, below, _, named⟩)
    · exact ⟨s, child,
        (mem_customTypes_of_defines (shaped_of_parse? parsed child) defines).2 (Or.inl own)⟩
    · refine ⟨s, child, (mem_customTypes_iff_below (by simp [isClosed, kind])
        (by simp [namesAt, ownNames, kind]) (by rw [kind]; rfl)).2 ⟨d, below, named⟩⟩

/-- The functions that are reported are those that the statements of the text define, bare or
    exported, in their order. Their custom types are among those of the text. In a text of functions
    and comments there are no others but those of the decorators of its exports. A function, or any
    node but the name of a type, that is visited within one of them adds its custom types to it. -/
theorem functionSpecs_agree (answered : functionSpecsOf code = .ok specs) :
    ∃ tree, parse? (dedent code.toList) = some tree ∧
      (∃ definition? : Tree → Option Tree,
        (∀ s ∈ tree.children, ∀ g, definition? s = some g ↔ Defines s g) ∧
        specs = (tree.children.filterMap definition?).map (specOf (dedent code.toList))) ∧
      (∀ f ∈ specs, f.customTypes ⊆ collectTypes code) ∧
      ((∀ s ∈ tree.children, s.kind = .comment ∨ ∃ g, Defines s g) → ∀ n,
        n ∈ collectTypes code ↔ (∃ f ∈ specs, n ∈ f.customTypes) ∨
          ∃ s ∈ tree.children, s.kind = .exportStatement ∧
            ∃ d ∈ s.children, d.kind = .decorator ∧ n ∈ d.customTypes (dedent code.toList)) ∧
      ∀ s ∈ tree.children, ∀ g, Defines s g → ∀ way v, Lies g way v → v.kind ≠ .typeName →
        (∀ above ∈ way, above.1.isClosed = false) →
          v.customTypes (dedent code.toList) ⊆ (specOf (dedent code.toList) g).customTypes := by
  obtain ⟨tree, parsed, rfl⟩ := parse?_of_functionSpecsOf answered
  refine ⟨tree, parsed, ⟨function?, ?_, rfl⟩, ?_, ?_, ?_⟩
  · intro s child g
    exact function?_iff (shaped_of_parse? parsed child)
  · intro f member
    obtain ⟨s, child, g, defines, rfl⟩ := (mem_functionSpecs_iff parsed).1 member
    obtain ⟨way, lies, visited⟩ := lies_of_defines (program_of_parse? parsed).1 child defines
    rw [collectTypes_of_parse? parsed]
    exact customTypes_subset_of_lies lies (not_typeName_of_function defines.1) visited
  · intro functions n
    rw [mem_collectTypes_of_functions parsed functions]
    simp only [mem_functionSpecs_iff parsed]
    refine or_congr_left ?_
    constructor
    · rintro ⟨s, child, g, defines, own⟩
      exact ⟨_, ⟨s, child, g, defines, rfl⟩, own⟩
    · rintro ⟨_, ⟨s, child, g, defines, rfl⟩, own⟩
      exact ⟨s, child, g, defines, own⟩
  · intro s _ g _ way v lies other visited
    exact customTypes_subset_of_lies lies other visited

def nestedAndExported : String :=
  "function f(a: A) \x7b function g(b: B) \x7b\x7d \x7d\n// c\nexport default function (c: C) \x7b\x7d\n"

theorem functionSpecs_nestedAndExported :
    ∃ specs tree, functionSpecsOf nestedAndExported = .ok specs ∧
      specs.map (·.customTypes) = [["A", "B"], ["C"]] ∧
      parse? (dedent nestedAndExported.toList) = some tree ∧
      collectTypes nestedAndExported = ["A", "B", "C"] ∧
      ∀ f ∈ specs, f.customTypes ⊆ collectTypes nestedAndExported := by
  have answered : functionSpecsOf nestedAndExported =
      .ok [⟨"f", [⟨"a", some "A", none⟩], "void", ["A", "B"]⟩,
        ⟨"", [⟨"c", some "C", none⟩], "void", ["C"]⟩] := by decide +kernel
  obtain ⟨tree, parsed, _, subset, _⟩ := functionSpecs_agree answered
  exact ⟨_, tree, answered, rfl, parsed, by decide +kernel, subset⟩

def decoratedExport : String := "@d<Foo>() export function f() \x7b\x7d\n"

def functionInTypeArgument : String :=
  "function f(x: A<typeof g(function (y: B) \x7b\x7d)>) \x7b\x7d\n"

/-- A decorator's types belong to no function, and what stands in the arguments of a type does not
    count for the function around it. -/
theorem functionSpecs_disagree :
    (¬ ∀ (code : String) (specs : List FunctionSpec) (tree : Tree),
      functionSpecsOf code = .ok specs → parse? (dedent code.toList) = some tree →
      (∀ s ∈ tree.children, s.kind = .comment ∨ ∃ g, Defines s g) →
        ∀ n ∈ collectTypes code, ∃ f ∈ specs, n ∈ f.customTypes) ∧
    ¬ ∀ (code : String) (tree : Tree), parse? (dedent code.toList) = some tree →
      ∀ s ∈ tree.children, ∀ g, Defines s g → ∀ way v, Lies g way v → isFunction v = true →
        v.customTypes (dedent code.toList) ⊆ (specOf (dedent code.toList) g).customTypes := by
  constructor
  · intro equal
    have answered : functionSpecsOf decoratedExport = .ok [⟨"f", [], "void", []⟩] := by
      decide +kernel
    have checked : (parse? (dedent decoratedExport.toList)).map (fun tree =>
        tree.children.all fun s => s.function?.isSome) = some true := by decide +kernel
    obtain ⟨tree, parsed, functions⟩ := Option.map_eq_some_iff.1 checked
    have defined : ∀ s ∈ tree.children, s.kind = .comment ∨ ∃ g, Defines s g := by
      intro s child
      obtain ⟨g, found⟩ := Option.isSome_iff_exists.1 (List.all_eq_true.1 functions s child)
      exact Or.inr ⟨g, (function?_iff (shaped_of_parse? parsed child)).1 found⟩
    have collected : "Foo" ∈ collectTypes decoratedExport := by decide +kernel
    obtain ⟨f, only, named⟩ := equal _ _ tree answered parsed defined "Foo" collected
    obtain rfl := List.mem_singleton.1 only
    cases named
  · intro counts
    have checked : ((parse? (dedent functionInTypeArgument.toList)).bind fun tree =>
        tree.children.head?.bind fun s => s.function?.bind fun g =>
          (g.below? [2, 1, 1, 1, 0, 1, 1, 2, 1, 0]).map fun v =>
            (isFunction v, v.customTypes (dedent functionInTypeArgument.toList),
              (specOf (dedent functionInTypeArgument.toList) g).customTypes)) =
        some (true, ["B"], ["A"]) := by decide +kernel
    obtain ⟨tree, parsed, checked⟩ := Option.bind_eq_some_iff.1 checked
    obtain ⟨s, first, checked⟩ := Option.bind_eq_some_iff.1 checked
    obtain ⟨g, found, checked⟩ := Option.bind_eq_some_iff.1 checked
    obtain ⟨v, below, checked⟩ := Option.map_eq_some_iff.1 checked
    obtain ⟨function, checked⟩ := Prod.mk.inj checked
    obtain ⟨types, outer⟩ := Prod.mk.inj checked
    obtain ⟨way, lies⟩ := lies_of_below? below
    have child := List.mem_of_head? first
    have defines := (function?_iff (shaped_of_parse? parsed child)).1 found
    have subset := counts _ tree parsed s child g defines way v lies function
    rw [types, outer] at subset
    exact absurd subset (by decide)

end Collect

end Tree

end SourceSpecs.Syntax
