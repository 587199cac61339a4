import SourceSpecs.Proofs.Layout
/-!
Names are written without argument lists: the name of a type, a qualified name, the name of a type
with arguments, and the names of an imported binding. The grammar is checked for it once, and every
tree that is read by it keeps to it.
-/
namespace SourceSpecs.Syntax

namespace Tree

theorem induction_on {P : Tree → Prop}
    (node : ∀ k x s cs, (∀ c ∈ cs, P c) → P (.node k x s cs)) (t : Tree) : P t := by
  match t with
  | .node k x s cs => exact node k x s cs fun c _ => induction_on node c

mutual

/-- Whether an argument list is found from a node down. Nothing is looked for below the kinds where
    the search stops. -/
def findsList (stops : Kind → Bool) : Tree → Bool
  | .node k _ _ cs => k == .typeArguments || (!stops k && findsListAmong stops cs)

def findsListAmong (stops : Kind → Bool) : List Tree → Bool
  | [] => false
  | c :: cs => findsList stops c || findsListAmong stops cs

end

def Listless (t : Tree) : Prop := t.findsList (fun _ => false) = false

theorem findsListAmong_eq (stops : Kind → Bool) (cs : List Tree) :
    findsListAmong stops cs = cs.any (findsList stops) := by
  induction cs with
  | nil => rfl
  | cons c cs ih => rw [findsListAmong, List.any_cons, ih]

theorem findsList_eq (stops : Kind → Bool) (t : Tree) : t.findsList stops =
    (t.kind == .typeArguments || (!stops t.kind && t.children.any (findsList stops))) := by
  cases t with
  | node k x s cs => rw [findsList, findsListAmong_eq, kind, children]

theorem listless_iff {t : Tree} :
    t.Listless ↔ t.kind ≠ .typeArguments ∧ ∀ c ∈ t.children, c.Listless := by
  rw [Listless, findsList_eq]
  simp [Listless]

theorem Listless.as (x : Field) {t : Tree} (h : t.Listless) : (t.as x).Listless := by
  cases t
  exact h

end Tree

open Syntax.Tree

def Kind.isOfNames : Kind → Bool
  | .typeName | .identifier | .qualifiedName | .importSpecifier => true
  | _ => false

/-- No argument list stands within a name. -/
inductive Tidy : Tree → Prop where
  | node {k : Kind} {x : Option Field} {s : Span} {cs : List Tree}
      (names : k.isOfNames = true → ∀ c ∈ cs, c.Listless)
      (named : k = .genericType → ∀ c ∈ cs, c.field = some .name → c.Listless)
      (below : ∀ c ∈ cs, Tidy c) : Tidy (.node k x s cs)

theorem Tidy.leaf (k : Kind) (s : Span) : Tidy (.leaf k s) := .node (by simp) (by simp) (by simp)

theorem Tidy.as (x : Field) {t : Tree} (h : Tidy t) : Tidy (t.as x) := by
  cases h with
  | node names named below => exact .node names named below

theorem Tidy.child {t c : Tree} (h : Tidy t) (member : c ∈ t.children) : Tidy c := by
  cases h with
  | node _ _ below => exact below c member

theorem Tidy.listless_child {t c : Tree} (h : Tidy t) (names : t.kind.isOfNames = true)
    (member : c ∈ t.children) : c.Listless := by
  cases h with
  | node parts _ _ => exact parts names c member

theorem Tidy.listless {t : Tree} (h : Tidy t) (names : t.kind.isOfNames = true) : t.Listless := by
  rw [listless_iff]
  refine ⟨?_, fun c member => h.listless_child names member⟩
  intro list
  rw [list] at names
  cases names

theorem Tidy.listless_name {t name : Tree} (h : Tidy t) (generic : t.kind = .genericType)
    (named : t.child? .name = some name) : name.Listless := by
  cases h with
  | node _ named_listless _ =>
    refine named_listless generic name (List.mem_of_find?_eq_some named) ?_
    simpa using List.find?_some named

namespace Form

variable {ρ : Type}

section Yields

/-- Every node that is read by the form has the property. -/
def Yields (limit : Nat) (call : ρ → Ending → Cursor → Outcome) (Q : Tree → Prop) (f : Form ρ) :
    Prop :=
  ∀ e c d nodes, f.read limit call e c = .fits nodes d → ∀ t ∈ nodes, Q t

variable {limit : Nat} {call : ρ → Ending → Cursor → Outcome} {Q R : Tree → Prop} {f g : Form ρ}

theorem comments_of_gap (comment : ∀ s, Q (.leaf .comment s)) (c : Cursor) :
    ∀ t ∈ (skipGap c).1, Q t := by
  intro t member
  rw [skipGap] at member
  obtain ⟨s, _, rfl⟩ := List.mem_map.1 member
  exact comment s

theorem yields_nothing : Yields limit call Q nothing := by
  intro e c d nodes read t member
  cases read
  cases member

theorem leaf_of_read {k : Token} (leaf : ∀ s, Q (.leaf k.kind s)) {c d : Cursor} {t : Tree}
    (read : k.read c = Option.some (t, d)) : Q t := by
  obtain ⟨n, _, same⟩ := Option.map_eq_some_iff.1 read
  obtain ⟨rfl, _⟩ := Prod.mk.inj same
  exact leaf _

theorem yields_token {k : Token} (comment : ∀ s, Q (.leaf .comment s))
    (leaf : ∀ s, Q (.leaf k.kind s)) : Yields limit call Q (token k) := by
  intro e c d nodes read t member
  obtain ⟨u, read_k, rfl⟩ := of_read_token read
  rcases List.mem_append.1 member with gap | here
  · exact comments_of_gap comment c t gap
  · obtain rfl := List.mem_singleton.1 here
    exact leaf_of_read leaf read_k

theorem yields_glued {k : Token} (leaf : ∀ s, Q (.leaf k.kind s)) : Yields limit call Q (glued k) := by
  intro e c d nodes read t member
  obtain ⟨u, read_k, rfl⟩ := of_read_glued read
  obtain rfl := List.mem_singleton.1 member
  exact leaf_of_read leaf read_k

theorem yields_seq (first : Yields limit call Q f) (second : Yields limit call Q g) :
    Yields limit call Q (seq f g) := by
  intro e c d nodes read t member
  obtain ⟨front, m, back, read_f, read_g, rfl⟩ := of_read_seq read
  rcases List.mem_append.1 member with here | there
  · exact first _ _ _ _ read_f t here
  · exact second _ _ _ _ read_g t there

theorem yields_alt (first : Yields limit call Q f) (second : Yields limit call Q g) :
    Yields limit call Q (alt f g) := by
  intro e c d nodes read
  rcases of_read_alt read with read_f | ⟨_, read_g⟩
  · exact first _ _ _ _ read_f
  · exact second _ _ _ _ read_g

theorem yields_many (inner : Yields limit call Q f) : Yields limit call Q (many f) := by
  intro e c d nodes read
  obtain ⟨_, rounds⟩ := rounds_of_read_many read
  clear read
  induction rounds with
  | done c => simp
  | round reads _ _ later =>
    intro t member
    rcases List.mem_append.1 member with here | there
    · exact inner _ _ _ _ reads t here
    · exact later t there

theorem yields_absent : Yields limit call Q (absent f) := by
  intro e c d nodes read t member
  obtain ⟨_, rfl, _⟩ := of_read_absent read
  cases member

theorem yields_node {k : Kind} (comment : ∀ s, Q (.leaf .comment s))
    (around : ∀ e c d s cs, f.read limit call e c = .fits cs d → Q (.node k none s cs)) :
    Yields limit call Q (node k f) := by
  intro e c d nodes read t member
  obtain ⟨cs, read_f, rfl⟩ := of_read_node read
  rcases List.mem_append.1 member with gap | here
  · exact comments_of_gap comment c t gap
  · obtain rfl := List.mem_singleton.1 here
    exact around _ _ _ _ _ read_f

theorem mem_markLast {x : Field} {ts : List Tree} {t : Tree} (member : t ∈ markLast x ts) :
    t ∈ ts ∨ ∃ u ∈ ts, t = u.as x := by
  fun_induction markLast x ts with
  | case1 => cases member
  | case2 u => exact Or.inr ⟨u, List.mem_singleton_self u, List.mem_singleton.1 member⟩
  | case3 u us _ ih =>
    rcases List.mem_cons.1 member with rfl | later
    · exact Or.inl List.mem_cons_self
    · rcases ih later with inside | ⟨v, inside, rfl⟩
      · exact Or.inl (List.mem_cons_of_mem u inside)
      · exact Or.inr ⟨v, List.mem_cons_of_mem u inside, rfl⟩

theorem yields_field {x : Field} (inner : Yields limit call R f) (kept : ∀ t, R t → Q t)
    (marked : ∀ t, R t → Q (t.as x)) : Yields limit call Q (field x f) := by
  intro e c d nodes read t member
  obtain ⟨unmarked, read_f, rfl⟩ := of_read_field read
  rcases mem_markLast member with inside | ⟨u, inside, rfl⟩
  · exact kept t (inner _ _ _ _ read_f t inside)
  · exact marked u (inner _ _ _ _ read_f u inside)

theorem yields_within {e : Ending} (inner : Yields limit call Q f) :
    Yields limit call Q (within e f) := by
  intro e' c d nodes read
  exact inner _ _ _ _ read

theorem yields_onward (inner : Yields limit call Q f) : Yields limit call Q (onward f) := by
  intro e c d nodes read
  exact inner _ _ _ _ (of_read_onward read).2

theorem yields_ended {e : Ending} : Yields limit call Q (ended e) := by
  intro e' c d nodes read t member
  obtain ⟨_, rfl, _⟩ := of_read_ended read
  cases member

theorem yields_finish (comment : ∀ s, Q (.leaf .comment s)) : Yields limit call Q finish := by
  intro e c d nodes read
  obtain ⟨_, rfl, _⟩ := of_read_finish read
  exact comments_of_gap comment c

end Yields

def isListless : Form ρ → Bool
  | token k | glued k => k.kind != .typeArguments
  | seq f g | alt f g => f.isListless && g.isListless
  | node k f => k != .typeArguments && f.isListless
  | many f | field _ f | within _ f | onward f => f.isListless
  | rule _ => false
  | nothing | absent _ | ended _ | finish => true

def namesListless (nameless : ρ → Bool) : Form ρ → Bool
  | seq f g | alt f g => f.namesListless nameless && g.namesListless nameless
  | field x f => if x = .name then f.isListless else f.namesListless nameless
  | many f | within _ f | onward f => f.namesListless nameless
  | rule r => nameless r
  | nothing | token _ | glued _ | node _ _ | absent _ | ended _ | finish => true

def isTidy (nameless : ρ → Bool) : Form ρ → Bool
  | seq f g | alt f g => f.isTidy nameless && g.isTidy nameless
  | node k f =>
    f.isTidy nameless && (!k.isOfNames || f.isListless) &&
      (k != .genericType || f.namesListless nameless)
  | many f | field _ f | within _ f | onward f => f.isTidy nameless
  | nothing | token _ | glued _ | absent _ | rule _ | ended _ | finish => true

variable {limit : Nat} {call : ρ → Ending → Cursor → Outcome} {nameless : ρ → Bool}

theorem listless_leaf {k : Kind} (other : k ≠ .typeArguments) (s : Span) :
    (Tree.leaf k s).Listless := by
  rw [listless_iff]
  exact ⟨other, by simp [Tree.leaf, children]⟩

theorem yields_listless (f : Form ρ) (listless : f.isListless = true) :
    Yields limit call Listless f := by
  have comment := listless_leaf (k := .comment) (by decide)
  induction f with
  | nothing => exact yields_nothing
  | token k => exact yields_token comment (listless_leaf (by simpa [isListless] using listless))
  | glued k => exact yields_glued (listless_leaf (by simpa [isListless] using listless))
  | seq f g ihf ihg =>
    rw [isListless, Bool.and_eq_true] at listless
    exact yields_seq (ihf listless.1) (ihg listless.2)
  | alt f g ihf ihg =>
    rw [isListless, Bool.and_eq_true] at listless
    exact yields_alt (ihf listless.1) (ihg listless.2)
  | many f ih => exact yields_many (ih listless)
  | absent f ih => exact yields_absent
  | rule r => cases listless
  | node k f ih =>
    rw [isListless, Bool.and_eq_true, bne_iff_ne] at listless
    refine yields_node comment ?_
    intro e c d s cs read
    rw [listless_iff]
    exact ⟨listless.1, ih listless.2 _ _ _ _ read⟩
  | field x f ih =>
    exact yields_field (ih listless) (fun t free => free) fun t free => free.as x
  | within e f ih => exact yields_within (ih listless)
  | onward f ih => exact yields_onward (ih listless)
  | ended e => exact yields_ended
  | finish => exact yields_finish comment

def NameListless (t : Tree) : Prop := t.field = Option.some .name → t.Listless

theorem nameListless_of_bare {k : Kind} {s : Span} {cs : List Tree} :
    NameListless (.node k none s cs) := by
  intro named
  cases named

theorem yields_namesListless (calls : ∀ r, nameless r = true → Yields limit call NameListless (rule r))
    (f : Form ρ) (listless : f.namesListless nameless = true) : Yields limit call NameListless f := by
  induction f with
  | nothing => exact yields_nothing
  | token k => exact yields_token (fun _ => nameListless_of_bare) fun _ => nameListless_of_bare
  | glued k => exact yields_glued fun _ => nameListless_of_bare
  | seq f g ihf ihg =>
    rw [namesListless, Bool.and_eq_true] at listless
    exact yields_seq (ihf listless.1) (ihg listless.2)
  | alt f g ihf ihg =>
    rw [namesListless, Bool.and_eq_true] at listless
    exact yields_alt (ihf listless.1) (ihg listless.2)
  | many f ih => exact yields_many (ih listless)
  | absent f ih => exact yields_absent
  | rule r => exact calls r listless
  | node k f ih => exact yields_node (fun _ => nameListless_of_bare) fun _ _ _ _ _ _ => nameListless_of_bare
  | field x f ih =>
    rw [namesListless] at listless
    split at listless
    · exact yields_field (yields_listless f listless) (fun t free _ => free) fun t free _ => free.as x
    · rename_i other
      refine yields_field (ih listless) (fun t free => free) ?_
      intro t _ named
      cases t
      exact absurd (Option.some.inj named) other
  | within e f ih => exact yields_within (ih listless)
  | onward f ih => exact yields_onward (ih listless)
  | ended e => exact yields_ended
  | finish => exact yields_finish fun _ => nameListless_of_bare

/-- The nodes that a form reads are tidy, if those of the rules are. -/
theorem yields_tidy (calls : ∀ r, Yields limit call Tidy (rule r))
    (bare : ∀ r, nameless r = true → Yields limit call NameListless (rule r)) (f : Form ρ)
    (tidy : f.isTidy nameless = true) : Yields limit call Tidy f := by
  induction f with
  | nothing => exact yields_nothing
  | token k => exact yields_token (Tidy.leaf .comment) (Tidy.leaf k.kind)
  | glued k => exact yields_glued (Tidy.leaf k.kind)
  | seq f g ihf ihg =>
    rw [isTidy, Bool.and_eq_true] at tidy
    exact yields_seq (ihf tidy.1) (ihg tidy.2)
  | alt f g ihf ihg =>
    rw [isTidy, Bool.and_eq_true] at tidy
    exact yields_alt (ihf tidy.1) (ihg tidy.2)
  | many f ih => exact yields_many (ih tidy)
  | absent f ih => exact yields_absent
  | rule r => exact calls r
  | node k f ih =>
    rw [isTidy, Bool.and_eq_true, Bool.and_eq_true] at tidy
    obtain ⟨⟨inner, names⟩, named⟩ := tidy
    refine yields_node (Tidy.leaf .comment) ?_
    intro e c d s cs read
    refine .node ?_ ?_ (ih inner _ _ _ _ read)
    · intro ofNames
      exact yields_listless f (by simpa [ofNames] using names) _ _ _ _ read
    · intro generic
      exact yields_namesListless bare f (by simpa [generic] using named) _ _ _ _ read
  | field x f ih => exact yields_field (ih tidy) (fun t h => h) fun t h => h.as x
  | within e f ih => exact yields_within (ih tidy)
  | onward f ih => exact yields_onward (ih tidy)
  | ended e => exact yields_ended
  | finish => exact yields_finish (Tidy.leaf .comment)

end Form

def Rule.isNameless (r : Rule) : Bool := r == .typeArguments

theorem Rule.isTidy_form (r : Rule) : r.form.isTidy isNameless = true := by
  have checked : (all.all fun r => r.form.isTidy isNameless) = true := by decide +kernel
  exact List.all_eq_true.1 checked r (mem_all r)

section Rules

variable {limit depth : Nat}

theorem nameless_rule {r : Rule} (nameless : r.isNameless = true) :
    Form.Yields limit (readRule Rule.form limit depth) Form.NameListless (.rule r) := by
  obtain rfl : r = .typeArguments := by simpa [Rule.isNameless] using nameless
  cases depth with
  | zero =>
    intro e c d nodes read
    cases read
  | succ depth =>
    exact Form.yields_node (fun _ => Form.nameListless_of_bare) fun _ _ _ _ _ _ =>
      Form.nameListless_of_bare

theorem tidy_rule (r : Rule) :
    Form.Yields limit (readRule Rule.form limit depth) Tidy (.rule r) := by
  induction depth generalizing r with
  | zero =>
    intro e c d nodes read
    cases read
  | succ depth ih =>
    exact Form.yields_tidy ih (fun r nameless => nameless_rule nameless) r.form r.isTidy_form

end Rules

/-- In the tree of a text no argument list stands within a name. -/
theorem tidy_of_parse? {t : List Char} {tree : Tree} (parsed : parse? t = some tree) : Tidy tree := by
  unfold parse? at parsed
  split at parsed
  · rename_i nodes next read
    obtain rfl := Option.some.inj parsed
    exact .node (by simp [Kind.isOfNames]) (by simp) (tidy_rule .program _ _ _ _ read)
  · cases parsed

end SourceSpecs.Syntax
