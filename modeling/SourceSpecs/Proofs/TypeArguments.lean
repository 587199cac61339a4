import SourceSpecs.Proofs.Collector
import SourceSpecs.Proofs.ListlessNames
import SourceSpecs.Proofs.NameOrder
/-!
What argument lists add to the custom types. The collector does not look below a type with arguments,
but it goes into every other argument list: that of a call, of a new object, of a class's base. So
two texts that are the same outside of their argument lists have the same custom types just where
their visited lists add the same names.
-/
namespace SourceSpecs.Syntax.Tree

open Text

mutual

/-- Whether two trees, each over a text of its own, are the same outside of argument lists. Where
    there is none in a node, its text is the same as well. -/
def alike (source source' : List Char) : Tree → Tree → Bool
  | .node k x s cs, .node k' x' s' cs' =>
    k == k' && x == x' && (k == .typeArguments ||
      (((Tree.node k x s cs).findsList (fun _ => false) || s.slice source == s'.slice source') &&
        allAlike source source' cs cs'))

def allAlike (source source' : List Char) : List Tree → List Tree → Bool
  | [], [] => true
  | c :: cs, c' :: cs' => alike source source' c c' && allAlike source source' cs cs'
  | _, _ => false

end

def Alike (source source' : List Char) (t t' : Tree) : Prop := alike source source' t t' = true

section Alike

variable {source source' : List Char} {t t' c v v' : Tree}

theorem allAlike_iff {cs cs' : List Tree} :
    allAlike source source' cs cs' = true ↔ List.Forall₂ (Alike source source') cs cs' := by
  induction cs generalizing cs' with
  | nil => cases cs' <;> simp [allAlike]
  | cons c cs ih =>
    cases cs' with
    | nil => simp [allAlike]
    | cons c' cs' => rw [allAlike, Bool.and_eq_true, ih, List.forall₂_cons, Alike]

theorem alike_iff : Alike source source' t t' ↔ t.kind = t'.kind ∧ t.field = t'.field ∧
    (t.kind = .typeArguments ∨ (t.Listless → t.text source = t'.text source') ∧
      List.Forall₂ (Alike source source') t.children t'.children) := by
  cases t with
  | node k x s cs =>
    cases t' with
    | node k' x' s' cs' =>
      have texts : (s.slice source = s'.slice source') ↔
          (node k x s cs).text source = (node k' x' s' cs').text source' :=
        String.ofList_inj.symm
      simp only [Alike, alike, Bool.and_eq_true, Bool.or_eq_true, beq_iff_eq, allAlike_iff, texts,
        and_assoc, kind, field, children, Listless]
      rw [imp_iff_not_or, Bool.not_eq_false]

theorem Alike.kind (h : Alike source source' t t') : t.kind = t'.kind := (alike_iff.1 h).1

theorem Alike.field (h : Alike source source' t t') : t.field = t'.field := (alike_iff.1 h).2.1

theorem Alike.children (h : Alike source source' t t') (other : t.kind ≠ .typeArguments) :
    List.Forall₂ (Alike source source') t.children t'.children :=
  ((alike_iff.1 h).2.2.resolve_left other).2

theorem Alike.text (h : Alike source source' t t') (listless : t.Listless) :
    t.text source = t'.text source' :=
  ((alike_iff.1 h).2.2.resolve_left (listless_iff.1 listless).1).1 listless

theorem Alike.findsList (stops : Kind → Bool) (h : Alike source source' t t') :
    t.findsList stops = t'.findsList stops := by
  induction t using induction_on generalizing t' with
  | node k x s cs ih =>
    rw [findsList_eq, findsList_eq, ← h.kind]
    by_cases list : (node k x s cs).kind = .typeArguments
    · rw [list]
      rfl
    · have below := (List.forall₂_and_left cs t'.children).2 ⟨ih, h.children list⟩
      have found : cs.map (Tree.findsList stops) = t'.children.map (Tree.findsList stops) :=
        map_eq_of_forall₂ (fun _ _ both => both.1 both.2) below
      have any (ts : List Tree) : ts.any (Tree.findsList stops) =
          (ts.map (Tree.findsList stops)).any id := by
        rw [List.any_map]
        rfl
      rw [any, any, ← found]
      rfl

theorem Alike.listless_iff (h : Alike source source' t t') : t.Listless ↔ t'.Listless := by
  rw [Listless, Listless, h.findsList]

theorem Alike.symm (h : Alike source source' t t') : Alike source' source t' t := by
  induction t using induction_on generalizing t' with
  | node k x s cs ih =>
    rw [alike_iff]
    refine ⟨h.kind.symm, h.field.symm, ?_⟩
    by_cases list : (node k x s cs).kind = .typeArguments
    · exact Or.inl (h.kind ▸ list)
    · refine Or.inr ⟨fun listless => (h.text (h.listless_iff.2 listless)).symm, ?_⟩
      have below := (List.forall₂_and_left cs t'.children).2 ⟨ih, h.children list⟩
      exact (below.imp fun _ _ both => both.1 both.2).flip

end Alike

section Names

variable {source source' : List Char} {n : String} {v v' : Tree} {way way' : List (Tree × Nat)}

def AlikeWays (source source' : List Char) (way way' : List (Tree × Nat)) : Prop :=
  List.Forall₂ (fun a b => Alike source source' a.1 b.1 ∧ a.2 = b.2) way way'

theorem Alike.nameIndex? (h : Alike source source' v v') (other : v.kind ≠ .typeArguments) :
    v.nameIndex? = v'.nameIndex? := by
  have fields : v.children.map Tree.field = v'.children.map Tree.field :=
    map_eq_of_forall₂ (fun _ _ below => below.field) (h.children other)
  have index (t : Tree) : t.nameIndex? = (t.children.map Tree.field).findIdx? (· == some .name) := by
    rw [List.findIdx?_map]
    rfl
  rw [index, index, fields]

theorem AlikeWays.namesDeclaration (ways : AlikeWays source source' way way') :
    NamesDeclaration way ↔ NamesDeclaration way' := by
  cases ways with
  | nil => exact Iff.rfl
  | @cons a b _ _ first _ =>
    obtain ⟨p, i⟩ := a
    obtain ⟨p', i'⟩ := b
    obtain ⟨same, rfl⟩ := first
    rw [NamesDeclaration, NamesDeclaration, ← same.kind]
    refine and_congr_right ?_
    intro declares
    rw [same.nameIndex? ?_]
    intro list
    rw [list] at declares
    cases declares

theorem Alike.child? (x : Field) (h : Alike source source' v v') (other : v.kind ≠ .typeArguments) :
    Option.Rel (Alike source source') (v.child? x) (v'.child? x) :=
  forall₂_find? (fun _ _ below => by rw [below.field]) (h.children other)

theorem Alike.childrenOf {k : Kind} {c : Tree} (h : Alike source source' v v')
    (other : v.kind ≠ .typeArguments) (member : c ∈ v.childrenOf k) :
    ∃ c' ∈ v'.childrenOf k, Alike source source' c c' :=
  exists_of_forall₂ (List.rel_filter (fun _ _ below => by simp only [below.kind]) (h.children other)) member

theorem Alike.hasKeyword (word : String) (h : Alike source source' v v')
    (other : v.kind ≠ .typeArguments) : v.hasKeyword word = v'.hasKeyword word := by
  have kinds : v.children.map Tree.kind = v'.children.map Tree.kind :=
    map_eq_of_forall₂ (fun _ _ below => below.kind) (h.children other)
  rw [hasKeyword_eq, hasKeyword_eq, kinds]

theorem Alike.localName {specifier specifier' name : Tree}
    (h : Alike source source' specifier specifier') (other : specifier.kind ≠ .typeArguments)
    (named : (specifier.child? .alias <|> specifier.child? .name) = some name) :
    ∃ name', (specifier'.child? .alias <|> specifier'.child? .name) = some name' ∧
      Alike source source' name name' := by
  have given := h.child? .alias other
  have bare := h.child? .name other
  generalize specifier.child? .alias = a, specifier'.child? .alias = a' at given named ⊢
  generalize specifier.child? .name = b, specifier'.child? .name = b' at bare named ⊢
  cases given with
  | some same =>
    obtain rfl := Option.some.inj named
    exact ⟨_, rfl, same⟩
  | none =>
    cases bare with
    | none => cases named
    | some same =>
      obtain rfl := Option.some.inj named
      exact ⟨_, rfl, same⟩

theorem Refers.alike (tidy : Tidy v) (same : Alike source source' v v')
    (ways : AlikeWays source source' way way') (h : Refers source n way v) :
    Refers source' n way' v' := by
  cases h with
  | @generic name kind named text =>
    have child := same.child? .name (by simp [kind])
    rw [named] at child
    generalize found : v'.child? .name = name' at child
    cases child with
    | some below =>
      rw [below.text (tidy.listless_name kind named)] at text
      exact .generic (same.kind ▸ kind) found text
  | qualified kind text =>
    rw [same.text (tidy.listless (by simp [kind, Kind.isOfNames]))] at text
    exact .qualified (same.kind ▸ kind) text
  | plain kind text free =>
    rw [same.text (tidy.listless (by simp [kind, Kind.isOfNames]))] at text
    exact .plain (same.kind ▸ kind) text fun names => free (ways.namesDeclaration.2 names)
  | @bound key mark target kind children single text =>
    have below := same.children (by simp [kind])
    rw [children] at below
    generalize found : v'.children = parts at below
    cases below with
    | cons first rest =>
      cases rest with
      | cons second rest =>
        cases rest with
        | cons third rest =>
          cases rest
          have tidy_target : Tidy target := tidy.child (by simp [children])
          rw [third.text (tidy_target.listless (by simp [single, Kind.isOfNames]))] at text
          exact .bound (same.kind ▸ kind) found (third.kind ▸ single) text
  | @imported clause list specifier name kind clauseOf listOf specifierOf typeOnly named text =>
    obtain ⟨clause_child, clause_kind⟩ := mem_childrenOf clauseOf
    obtain ⟨list_child, list_kind⟩ := mem_childrenOf listOf
    obtain ⟨specifier_child, specifier_kind⟩ := mem_childrenOf specifierOf
    have other : v.kind ≠ .typeArguments := by simp [kind]
    have clause_other : clause.kind ≠ .typeArguments := by simp [clause_kind]
    have specifier_other : specifier.kind ≠ .typeArguments := by simp [specifier_kind]
    obtain ⟨clause', clauseOf', clauses⟩ := same.childrenOf other clauseOf
    obtain ⟨list', listOf', lists⟩ := clauses.childrenOf clause_other listOf
    obtain ⟨specifier', specifierOf', specifiers⟩ :=
      lists.childrenOf (by simp [list_kind]) specifierOf
    obtain ⟨name', named', names⟩ := specifiers.localName specifier_other named
    have tidy_specifier : Tidy specifier :=
      ((tidy.child clause_child).child list_child).child specifier_child
    have listless : name.Listless :=
      tidy_specifier.listless_child (by simp [specifier_kind, Kind.isOfNames])
        (mem_of_child? named)
    rw [names.text listless] at text
    rw [same.hasKeyword "type" other, clauses.hasKeyword "type" clause_other,
      specifiers.hasKeyword "type" specifier_other] at typeOnly
    exact .imported (same.kind ▸ kind) clauseOf' listOf' specifierOf' typeOnly named' text

end Names

/-- A node that is visited outside of the argument lists refers to the name. -/
def RefersOutside (source : List Char) (n : String) (t : Tree) : Prop :=
  ∃ way v, Lies t way v ∧
    (∀ above ∈ way, above.1.isClosed = false ∧ above.1.kind ≠ .typeArguments) ∧ Refers source n way v

/-- A node that is visited in an argument list refers to the name. -/
def RefersInside (source : List Char) (n : String) (t : Tree) : Prop :=
  ∃ way v, Lies t way v ∧ (∀ above ∈ way, above.1.isClosed = false) ∧
    (∃ above ∈ way, above.1.kind = .typeArguments) ∧ Refers source n way v

def visitsList : Tree → Bool := findsList fun k => k == .genericType || k == .qualifiedName

section Runs

variable {source source' : List Char} {n : String} {root root' v : Tree} {way : List (Tree × Nat)}

theorem tidy_of_lies (tidy : Tidy root) (lies : Lies root way v) : Tidy v := by
  induction lies with
  | root => exact tidy
  | child _ here ih => exact ih.child (List.mem_of_getElem? here)

/-- What lies outside of the argument lists lies at the same place of a tree that is alike. -/
theorem Lies.alike (same : Alike source source' root root') (lies : Lies root way v)
    (outside : ∀ above ∈ way, above.1.kind ≠ .typeArguments) :
    ∃ way' v', Lies root' way' v' ∧ Alike source source' v v' ∧ AlikeWays source source' way way' := by
  induction lies with
  | root => exact ⟨[], root', .root, same, .nil⟩
  | @child way p c i above here ih =>
    obtain ⟨way', p', lies', same', ways⟩ :=
      ih fun x member => outside x (List.mem_cons_of_mem _ member)
    obtain ⟨c', here', below⟩ :=
      getElem?_of_forall₂ (same'.children (outside (p, i) List.mem_cons_self)) here
    exact ⟨(p', i) :: way', c', .child lies' here', below, .cons ⟨same', rfl⟩ ways⟩

theorem AlikeWays.outside {way' : List (Tree × Nat)} (ways : AlikeWays source source' way way')
    (outside : ∀ above ∈ way, above.1.isClosed = false ∧ above.1.kind ≠ .typeArguments) :
    ∀ above ∈ way', above.1.isClosed = false ∧ above.1.kind ≠ .typeArguments := by
  intro above' member'
  have back : List.Forall₂ (fun b a => Alike source source' a.1 b.1 ∧ a.2 = b.2) way' way :=
    List.Forall₂.flip ways
  obtain ⟨above, member, same, _⟩ := exists_of_forall₂ back member'
  rw [isClosed, ← same.kind]
  exact outside above member

theorem RefersOutside.alike (tidy : Tidy root) (same : Alike source source' root root')
    (h : RefersOutside source n root) : RefersOutside source' n root' := by
  obtain ⟨way, v, lies, outside, refers⟩ := h
  obtain ⟨way', v', lies', below, ways⟩ := lies.alike same fun x member => (outside x member).2
  exact ⟨way', v', lies', ways.outside outside, refers.alike (tidy_of_lies tidy lies) below ways⟩

/-- A visited node refers to a name outside of the argument lists or in one. -/
theorem refers_iff : (∃ way v, Lies root way v ∧ (∀ above ∈ way, above.1.isClosed = false) ∧
    Refers source n way v) ↔ RefersOutside source n root ∨ RefersInside source n root := by
  constructor
  · rintro ⟨way, v, lies, visited, refers⟩
    by_cases inside : ∃ above ∈ way, above.1.kind = .typeArguments
    · exact Or.inr ⟨way, v, lies, visited, inside, refers⟩
    · refine Or.inl ⟨way, v, lies, fun above member => ⟨visited above member, ?_⟩, refers⟩
      intro list
      exact inside ⟨above, member, list⟩
  · rintro (⟨way, v, lies, outside, refers⟩ | ⟨way, v, lies, visited, _, refers⟩)
    · exact ⟨way, v, lies, fun above member => (outside above member).1, refers⟩
    · exact ⟨way, v, lies, visited, refers⟩

theorem visitsList_of_lies (lies : Lies root way v) (visited : ∀ above ∈ way, above.1.isClosed = false)
    (list : v.visitsList = true ∨ ∃ above ∈ way, above.1.kind = .typeArguments) :
    root.visitsList = true := by
  induction lies with
  | root => exact list.resolve_right (by simp)
  | @child way p c i above here ih =>
    refine ih (fun x member => visited x (List.mem_cons_of_mem _ member)) ?_
    have entered : p.isClosed = false := visited (p, i) List.mem_cons_self
    rw [visitsList, findsList_eq, show (p.kind == .genericType || p.kind == .qualifiedName) = false
      from entered]
    rcases list with found | ⟨x, member, kind⟩
    · left
      simp only [Bool.not_false, Bool.true_and, Bool.or_eq_true, List.any_eq_true]
      exact Or.inr ⟨c, List.mem_of_getElem? here, found⟩
    · rcases List.mem_cons.1 member with rfl | later
      · left
        simp [kind]
      · exact Or.inr ⟨x, later, kind⟩

theorem not_refersInside (free : root.visitsList = false) : ¬ RefersInside source n root := by
  rintro ⟨way, v, lies, visited, inside, _⟩
  rw [visitsList_of_lies lies visited (Or.inr inside)] at free
  cases free

end Runs

theorem and_or_congr_iff {a o i i' : Prop} :
    (a ∧ (o ∨ i) ↔ a ∧ (o ∨ i')) ↔ (a → ¬ o → (i ↔ i')) := by
  tauto

section Collect

variable {code code' : String} {tree tree' : Tree}

theorem collectTypes_of_parse? (parsed : parse? (dedent code.toList) = some tree) :
    collectTypes code = tree.customTypes (dedent code.toList) := by
  unfold collectTypes customTypes?
  dsimp only
  rw [parsed, Option.map_some, Option.getD_some]

theorem mem_collectTypes_iff (parsed : parse? (dedent code.toList) = some tree) (n : String) :
    n ∈ collectTypes code ↔ n ∉ builtinTypes ∧
      (RefersOutside (dedent code.toList) n tree ∨ RefersInside (dedent code.toList) n tree) := by
  rw [collectTypes_of_parse? parsed, mem_customTypes (laid_of_parse? parsed), refers_iff]

theorem ascending_collectTypes (parsed : parse? (dedent code.toList) = some tree) :
    Ascending (collectTypes code) := by
  rw [collectTypes_of_parse? parsed]
  exact ascending_sortNames _

theorem collectTypes_eq_iff (parsed : parse? (dedent code.toList) = some tree)
    (parsed' : parse? (dedent code'.toList) = some tree')
    (same : Alike (dedent code.toList) (dedent code'.toList) tree tree') :
    collectTypes code = collectTypes code' ↔ ∀ n ∉ builtinTypes,
      ¬ RefersOutside (dedent code.toList) n tree →
        (RefersInside (dedent code.toList) n tree ↔ RefersInside (dedent code'.toList) n tree') := by
  have outside (n : String) : RefersOutside (dedent code.toList) n tree ↔
      RefersOutside (dedent code'.toList) n tree' :=
    ⟨.alike (tidy_of_parse? parsed) same, .alike (tidy_of_parse? parsed') same.symm⟩
  have members : collectTypes code = collectTypes code' ↔
      ∀ n, n ∈ collectTypes code ↔ n ∈ collectTypes code' := by
    constructor
    · intro equal n
      rw [equal]
    · exact (ascending_collectTypes parsed).eq_of_mem_iff (ascending_collectTypes parsed')
  rw [members]
  refine forall_congr' ?_
  intro n
  rw [mem_collectTypes_iff parsed, mem_collectTypes_iff parsed', ← outside n, and_or_congr_iff]

/-- Two texts that are the same outside of their argument lists have the same custom types if and
    only if the lists that are visited add the same names. Where all lists are those of types with
    arguments, none is visited, and the custom types are the same. -/
theorem collectTypes_alike_iff (parsed : parse? (dedent code.toList) = some tree)
    (parsed' : parse? (dedent code'.toList) = some tree')
    (same : Alike (dedent code.toList) (dedent code'.toList) tree tree') :
    (collectTypes code = collectTypes code' ↔ ∀ n ∉ builtinTypes,
      ¬ RefersOutside (dedent code.toList) n tree →
        (RefersInside (dedent code.toList) n tree ↔ RefersInside (dedent code'.toList) n tree')) ∧
    (tree.visitsList = false → collectTypes code = collectTypes code') := by
  have equal_iff := collectTypes_eq_iff parsed parsed' same
  refine ⟨equal_iff, ?_⟩
  intro free
  have free' : tree'.visitsList = false := by
    rw [visitsList, ← same.findsList]
    exact free
  exact equal_iff.2 fun n _ _ => iff_of_false (not_refersInside free) (not_refersInside free')

end Collect

def rowOfKey : String := "let a: Row<Key>;\n"

def rowOfCell : String := "let a: Row<Cell[]>;\n"

theorem collectTypes_rowOfKey : ∃ tree tree',
    parse? (dedent rowOfKey.toList) = some tree ∧ parse? (dedent rowOfCell.toList) = some tree' ∧
      Alike (dedent rowOfKey.toList) (dedent rowOfCell.toList) tree tree' ∧
      tree.visitsList = false ∧ collectTypes rowOfKey = collectTypes rowOfCell := by
  have checked : ((parse? (dedent rowOfKey.toList)).bind fun tree =>
      (parse? (dedent rowOfCell.toList)).map fun tree' =>
        (alike (dedent rowOfKey.toList) (dedent rowOfCell.toList) tree tree', tree.visitsList)) =
      some (true, false) := by decide +kernel
  obtain ⟨tree, parsed, checked⟩ := Option.bind_eq_some_iff.1 checked
  obtain ⟨tree', parsed', checked⟩ := Option.map_eq_some_iff.1 checked
  obtain ⟨same, free⟩ := Prod.mk.inj checked
  exact ⟨tree, tree', parsed, parsed', same, free,
    (collectTypes_alike_iff parsed parsed' same).2 free⟩

/-- The argument of a call is collected. -/
theorem collectTypes_of_call :
    ¬ ∀ (code code' : String) (tree tree' : Tree), parse? (dedent code.toList) = some tree →
      parse? (dedent code'.toList) = some tree' →
      Alike (dedent code.toList) (dedent code'.toList) tree tree' →
        collectTypes code = collectTypes code' := by
  intro equal
  have checked : ((parse? (dedent "f<Bar>(x);\n".toList)).bind fun tree =>
      (parse? (dedent "f<Baz>(x);\n".toList)).map fun tree' =>
        alike (dedent "f<Bar>(x);\n".toList) (dedent "f<Baz>(x);\n".toList) tree tree') =
      some true := by decide +kernel
  obtain ⟨tree, parsed, checked⟩ := Option.bind_eq_some_iff.1 checked
  obtain ⟨tree', parsed', same⟩ := Option.map_eq_some_iff.1 checked
  exact absurd (equal _ _ tree tree' parsed parsed' same) (by decide +kernel)

end SourceSpecs.Syntax.Tree
