import SourceSpecs.Proofs.Layout
import SourceSpecs.Proofs.MovedTree
/-!
What the collector of custom types finds in a tree. It passes below every node but a type with
arguments and a qualified name. A node counts for the names that it refers to by itself, and the
name of a declaration does not count at all.
-/
namespace SourceSpecs.Syntax.Tree

/-- A node of a tree with the way to it: the nodes above it, nearest first, and the place of the
    next node among the children of each. -/
inductive Lies (root : Tree) : List (Tree × Nat) → Tree → Prop where
  | root : Lies root [] root
  | child {way : List (Tree × Nat)} {p c : Tree} {i : Nat} (above : Lies root way p)
      (here : p.children[i]? = some c) : Lies root ((p, i) :: way) c

/-- What stands below the node is not visited. -/
def isClosed (t : Tree) : Bool := t.kind == .genericType || t.kind == .qualifiedName

/-- The place of the child that names the node. -/
def nameIndex? (t : Tree) : Option Nat := t.children.findIdx? fun c => c.field == some .name

def NamesDeclaration : List (Tree × Nat) → Prop
  | (p, i) :: _ => p.kind.declaresType = true ∧ p.nameIndex? = some i
  | [] => False

/-- A node at the end of a way refers to a name by itself. -/
inductive Refers (source : List Char) (n : String) (way : List (Tree × Nat)) (v : Tree) : Prop where
  | generic {name : Tree} (kind : v.kind = .genericType) (named : v.child? .name = some name)
      (text : name.text source = n)
  | qualified (kind : v.kind = .qualifiedName) (text : v.text source = n)
  | plain (kind : v.kind = .typeName) (text : v.text source = n) (free : ¬ NamesDeclaration way)
  | bound {key mark target : Tree} (kind : v.kind = .pairPattern)
      (children : v.children = [key, mark, target]) (single : target.kind = .identifier)
      (text : target.text source = n)
  | imported {clause list specifier name : Tree} (kind : v.kind = .importStatement)
      (clauseOf : clause ∈ v.childrenOf .importClause)
      (listOf : list ∈ clause.childrenOf .namedImports)
      (specifierOf : specifier ∈ list.childrenOf .importSpecifier)
      (typeOnly : v.hasKeyword "type" ∨ clause.hasKeyword "type" ∨ specifier.hasKeyword "type")
      (named : (specifier.child? .alias <|> specifier.child? .name) = some name)
      (text : name.text source = n)

section Names

variable {source : List Char} {n : String} {root p c v : Tree} {way : List (Tree × Nat)} {i : Nat}

def namesAt (source : List Char) (declared : Bool) (v : Tree) : List String :=
  match v.kind with
  | .genericType => (v.child? .name).toList.map (Tree.text source)
  | .qualifiedName => [v.text source]
  | _ => ownNames source declared v

def declaredAt (declared : Bool) (v : Tree) : List (Tree × Nat) → Bool
  | [] => declared
  | (p, _) :: _ => p.declaredName?.any (sameNode · v)

theorem names_open (declared : Bool) (visited : v.isClosed = false) :
    v.names source declared =
      namesAt source declared v ++ namesOfAll source v.declaredName? v.children := by
  cases v with
  | node k x s cs =>
    simp only [isClosed, kind, Bool.or_eq_false_iff, beq_eq_false_iff_ne] at visited
    rw [names_other declared visited.1 visited.2, namesAt]
    split
    · exact absurd ‹_› visited.1
    · exact absurd ‹_› visited.2
    · rfl

theorem names_closed (declared : Bool) (closed : v.isClosed = true) :
    v.names source declared = namesAt source declared v := by
  cases v with
  | node k x s cs =>
    simp only [isClosed, kind, Bool.or_eq_true, beq_iff_eq] at closed
    rcases closed with rfl | rfl
    · rw [names, namesAt]
      simp only [kind]
      cases child? _ .name <;> rfl
    · rfl

theorem namesAt_subset (declared : Bool) (h : n ∈ namesAt source declared v) :
    n ∈ v.names source declared := by
  cases closed : v.isClosed with
  | true => rwa [names_closed declared closed]
  | false =>
    rw [names_open declared closed]
    exact List.mem_append_left _ h

theorem mem_namesOfAll (declared : Option Tree) {cs : List Tree} (here : cs[i]? = some c)
    (h : n ∈ c.names source (declared.any (sameNode · c))) : n ∈ namesOfAll source declared cs := by
  induction cs generalizing i with
  | nil => cases here
  | cons t ts ih =>
    rw [namesOfAll]
    cases i with
    | zero =>
      obtain rfl := Option.some.inj here
      exact List.mem_append_left _ h
    | succ i => exact List.mem_append_right _ (ih here)

theorem mem_names_of_lies (declared : Bool) (lies : Lies root way v)
    (visited : ∀ above ∈ way, above.1.isClosed = false)
    (h : n ∈ v.names source (declaredAt declared v way)) : n ∈ root.names source declared := by
  induction lies with
  | root => exact h
  | @child way p c i above here ih =>
    apply ih fun x member => visited x (List.mem_cons_of_mem _ member)
    rw [names_open _ (visited (p, i) List.mem_cons_self)]
    exact List.mem_append_right _ (mem_namesOfAll _ here h)

theorem Lies.under (here : p.children[i]? = some c) (h : Lies c way v) :
    Lies p (way ++ [(p, i)]) v := by
  induction h with
  | root => exact .child .root here
  | child _ there ih => exact .child ih there

theorem declaredAt_below (declared : Bool) (h : Lies c way v) :
    declaredAt declared v (way ++ [(p, i)]) =
      declaredAt (p.declaredName?.any (sameNode · c)) v way := by
  cases h with
  | root => rfl
  | child => rfl

def FoundAt (source : List Char) (n : String) (declared : Bool) (t : Tree) : Prop :=
  ∃ way v, Lies t way v ∧ (∀ above ∈ way, above.1.isClosed = false) ∧
    n ∈ namesAt source (declaredAt declared v way) v

mutual

theorem found_of_mem_names (declared : Bool) (t : Tree) (h : n ∈ t.names source declared) :
    FoundAt source n declared t := by
  cases t with
  | node k x s cs =>
    cases closed : (node k x s cs).isClosed with
    | true =>
      rw [names_closed declared closed] at h
      exact ⟨[], _, .root, by simp, h⟩
    | false =>
      rw [names_open declared closed] at h
      rcases List.mem_append.1 h with here | inside
      · exact ⟨[], _, .root, by simp, here⟩
      · obtain ⟨i, c, child, way, v, lies, visited, found⟩ :=
          found_of_mem_namesOfAll (node k x s cs).declaredName? cs inside
        refine ⟨way ++ [(node k x s cs, i)], v, lies.under child, ?_, ?_⟩
        · intro above member
          rcases List.mem_append.1 member with member | member
          · exact visited above member
          · obtain rfl := List.mem_singleton.1 member
            exact closed
        · rwa [declaredAt_below declared lies]

theorem found_of_mem_namesOfAll (declared : Option Tree) (ts : List Tree)
    (h : n ∈ namesOfAll source declared ts) :
    ∃ (i : Nat) (c : Tree), ts[i]? = some c ∧ FoundAt source n (declared.any (sameNode · c)) c := by
  cases ts with
  | nil => cases h
  | cons t ts =>
    rw [namesOfAll] at h
    rcases List.mem_append.1 h with here | behind
    · exact ⟨0, t, rfl, found_of_mem_names _ t here⟩
    · obtain ⟨i, c, child, found⟩ := found_of_mem_namesOfAll declared ts behind
      exact ⟨i + 1, c, child, found⟩

end

theorem mem_names_iff (declared : Bool) : n ∈ root.names source declared ↔ FoundAt source n declared root := by
  constructor
  · exact found_of_mem_names declared root
  · rintro ⟨way, v, lies, visited, found⟩
    exact mem_names_of_lies declared lies visited (namesAt_subset _ found)

end Names

section Identity

variable {root p c v : Tree} {way : List (Tree × Nat)} {i : Nat}

theorem laid_of_lies (laid : Laid root) (lies : Lies root way v) : Laid v := by
  induction lies with
  | root => exact laid
  | child _ here ih =>
    cases ih with
    | node _ below => exact below _ (List.mem_of_getElem? here)

theorem child?_name (p : Tree) : p.child? .name = p.nameIndex?.bind (p.children[·]?) := by
  rw [child?, nameIndex?, List.find?_eq_map_findFinIdx?_getElem,
    List.findIdx?_eq_map_findFinIdx?_val]
  cases List.findFinIdx? _ p.children <;> simp

theorem sameNode_iff {a b : Tree} : sameNode a b = true ↔ a.kind = b.kind ∧ a.span = b.span := by
  rw [sameNode, Bool.and_eq_true, beq_iff_eq, beq_iff_eq]

theorem index_eq_of_span {j : Nat} {d : Tree} (laid : Laid p) (here : p.children[i]? = some c)
    (there : p.children[j]? = some d) (same : c.span = d.span) : i = j := by
  cases laid with
  | node order _ =>
    have apart := order.pairwise
    rw [List.pairwise_map, List.pairwise_iff_getElem] at apart
    obtain ⟨i_less, rfl⟩ := List.getElem?_eq_some_iff.1 here
    obtain ⟨j_less, rfl⟩ := List.getElem?_eq_some_iff.1 there
    rcases Nat.lt_trichotomy i j with less | eq | less
    · exact absurd same (apart i j i_less j_less less)
    · exact eq
    · exact absurd same.symm (apart j i j_less i_less less)

/-- The name above is compared equal to its own node and to no other child. -/
theorem sameNode_name_iff (laid : Laid p) (here : p.children[i]? = some c) :
    (p.child? .name).any (sameNode · c) = true ↔ p.nameIndex? = some i := by
  rw [child?_name]
  cases named : p.nameIndex? with
  | none => simp
  | some j =>
    obtain ⟨j_less, _⟩ := List.findIdx?_eq_some_iff_getElem.1 named
    have there : p.children[j]? = some p.children[j] := List.getElem?_eq_getElem j_less
    rw [Option.bind_some, there, Option.any_some, Option.some.injEq, sameNode_iff]
    constructor
    · rintro ⟨_, same⟩
      exact index_eq_of_span laid there here same
    · rintro rfl
      obtain rfl := Option.some.inj (there.symm.trans here)
      exact ⟨rfl, rfl⟩

theorem declaredAt_iff (laid : Laid root) (lies : Lies root way v) :
    declaredAt false v way = true ↔ NamesDeclaration way := by
  cases lies with
  | root => simp [declaredAt, NamesDeclaration]
  | @child way p _ i above here =>
    have same := sameNode_name_iff (laid_of_lies laid above) here
    rw [declaredAt, declaredName?, NamesDeclaration]
    by_cases declares : p.kind.declaresType = true
    · rw [if_pos declares, same]
      simp [declares]
    · rw [if_neg declares]
      simp [declares]

end Identity

section Refers

variable {source : List Char} {n : String} {way : List (Tree × Nat)} {v : Tree}

theorem mem_childrenOf {p c : Tree} {k : Kind} (h : c ∈ p.childrenOf k) :
    c ∈ p.children ∧ c.kind = k := by
  simpa [childrenOf] using h

theorem mem_of_child? {p c : Tree} {x y : Field} (h : (p.child? x <|> p.child? y) = some c) :
    c ∈ p.children := by
  cases first : p.child? x with
  | some t =>
    rw [first] at h
    obtain rfl := Option.some.inj h
    exact List.mem_of_find?_eq_some first
  | none =>
    rw [first] at h
    exact List.mem_of_find?_eq_some h

theorem mem_localName_iff {specifier : Tree} : n ∈ localName source specifier ↔
    ∃ name, (specifier.child? .alias <|> specifier.child? .name) = some name ∧
      name.text source = n := by
  rw [localName]
  cases specifier.child? .alias <|> specifier.child? .name <;> simp [eq_comm]

theorem mem_typeImports_iff : n ∈ typeImports source v ↔
    ∃ clause ∈ v.childrenOf .importClause, ∃ list ∈ clause.childrenOf .namedImports,
      ∃ specifier ∈ list.childrenOf .importSpecifier,
        (v.hasKeyword "type" ∨ clause.hasKeyword "type" ∨ specifier.hasKeyword "type") ∧
          n ∈ localName source specifier := by
  simp only [typeImports, List.mem_flatMap, List.mem_filter, Bool.or_eq_true, or_assoc, and_assoc]

theorem mem_boundName_iff {cs : List Tree} : n ∈ boundName source cs ↔
    ∃ key mark target, cs = [key, mark, target] ∧ target.kind = .identifier ∧
      target.text source = n := by
  unfold boundName
  split
  · rename_i target
    split
    · rename_i single
      rw [beq_iff_eq] at single
      rw [List.mem_singleton]
      constructor
      · rintro rfl
        exact ⟨_, _, target, rfl, single, rfl⟩
      · rintro ⟨_, _, _, ⟨⟩, _, rfl⟩
        rfl
    · rename_i other
      rw [beq_iff_eq] at other
      simp only [List.not_mem_nil, false_iff]
      rintro ⟨_, _, _, ⟨⟩, single, _⟩
      exact other single
  · rename_i other
    simp only [List.not_mem_nil, false_iff]
    rintro ⟨key, mark, target, rfl, _⟩
    exact other _ _ _ rfl

theorem mem_namesAt_iff {declared : Bool} (names : declared = true ↔ NamesDeclaration way) :
    n ∈ namesAt source declared v ↔ Refers source n way v := by
  constructor
  · intro h
    rw [namesAt] at h
    split at h
    · obtain ⟨name, named, text⟩ := List.mem_map.1 h
      exact .generic ‹_› (Option.mem_toList.1 named) text
    · exact .qualified ‹_› (List.mem_singleton.1 h).symm
    · rw [ownNames] at h
      split at h
      · split at h
        · cases h
        · rename_i not_declared
          exact .plain ‹_› (List.mem_singleton.1 h).symm fun named => not_declared (names.2 named)
      · obtain ⟨key, mark, target, children, single, text⟩ := mem_boundName_iff.1 h
        exact .bound ‹_› children single text
      · obtain ⟨clause, clauseOf, list, listOf, specifier, specifierOf, typeOnly, found⟩ :=
          mem_typeImports_iff.1 h
        obtain ⟨name, named, text⟩ := mem_localName_iff.1 found
        exact .imported ‹_› clauseOf listOf specifierOf typeOnly named text
      · cases h
  · intro h
    cases h with
    | generic kind named text =>
      rw [namesAt, kind]
      exact List.mem_map.2 ⟨_, Option.mem_toList.2 named, text⟩
    | qualified kind text =>
      rw [namesAt, kind]
      exact List.mem_singleton.2 text.symm
    | plain kind text free =>
      have not_declared : ¬ declared = true := fun found => free (names.1 found)
      simp [namesAt, ownNames, kind, not_declared, text]
    | bound kind children single text =>
      simp only [namesAt, ownNames, kind]
      exact mem_boundName_iff.2 ⟨_, _, _, children, single, text⟩
    | imported kind clauseOf listOf specifierOf typeOnly named text =>
      simp only [namesAt, ownNames, kind]
      exact mem_typeImports_iff.2 ⟨_, clauseOf, _, listOf, _, specifierOf, typeOnly,
        mem_localName_iff.2 ⟨_, named, text⟩⟩

end Refers

/-- The custom types of a tree are the names that are not built in and that a visited node refers to. -/
theorem mem_customTypes {source : List Char} {tree : Tree} (laid : Laid tree) (n : String) :
    n ∈ tree.customTypes source ↔ n ∉ builtinTypes ∧
      ∃ way v, Lies tree way v ∧ (∀ above ∈ way, above.1.isClosed = false) ∧
        Refers source n way v := by
  have found : n ∈ tree.names source false ↔ ∃ way v, Lies tree way v ∧
      (∀ above ∈ way, above.1.isClosed = false) ∧ Refers source n way v := by
    rw [mem_names_iff]
    constructor
    · rintro ⟨way, v, lies, visited, found⟩
      exact ⟨way, v, lies, visited, (mem_namesAt_iff (declaredAt_iff laid lies)).1 found⟩
    · rintro ⟨way, v, lies, visited, refers⟩
      exact ⟨way, v, lies, visited, (mem_namesAt_iff (declaredAt_iff laid lies)).2 refers⟩
  rw [customTypes, Text.mem_sortNames, List.mem_filter, found, and_comm]
  simp [isBuiltinType]

/-- The collector finds just the names that are not built in and that some node refers to which
    stands below no type with arguments and below no qualified name. Comparing kinds and stretches
    leaves out the name of a declaration and nothing else. -/
theorem mem_customTypes_iff {source : List Char} {tree : Tree} (parsed : parse? source = some tree)
    (n : String) :
    (n ∈ tree.customTypes source ↔ n ∉ builtinTypes ∧
      ∃ way v, Lies tree way v ∧ (∀ above ∈ way, above.1.isClosed = false) ∧
        Refers source n way v) ∧
    ∀ (way : List (Tree × Nat)) (p c : Tree) (i : Nat), Lies tree way p →
      p.kind.declaresType = true → p.children[i]? = some c →
        ((p.child? .name).any (sameNode · c) = true ↔ p.nameIndex? = some i) := by
  have laid := laid_of_parse? parsed
  refine ⟨mem_customTypes laid n, ?_⟩
  intro way p c i lies _ here
  exact sameNode_name_iff (laid_of_lies laid lies) here

def importAndMembers : List Char :=
  "import type \x7b Row as Line \x7d from './row';
interface Table<K extends db.Key> \x7b rows: Map<Line, string>; pick(\x7b id: Id \x7d: Line): K \x7d\n".toList

theorem mem_customTypes_importAndMembers :
    ∃ tree, parse? importAndMembers = some tree ∧
      tree.customTypes importAndMembers = ["Id", "K", "Line", "Map", "db.Key"] ∧
      ("Line" ∈ tree.customTypes importAndMembers ↔ "Line" ∉ builtinTypes ∧
        ∃ way v, Lies tree way v ∧ (∀ above ∈ way, above.1.isClosed = false) ∧
          Refers importAndMembers "Line" way v) := by
  have collected : (parse? importAndMembers).map (customTypes importAndMembers) =
      some ["Id", "K", "Line", "Map", "db.Key"] := by decide +kernel
  obtain ⟨tree, parsed, types⟩ := Option.map_eq_some_iff.1 collected
  exact ⟨tree, parsed, types, (mem_customTypes_iff parsed "Line").1⟩

end SourceSpecs.Syntax.Tree
