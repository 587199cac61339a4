import SourceSpecs.Proofs.ListlessNames
import SourceSpecs.Signature
/-!
What stands right under a statement that exports. Either one node is passed on, and around it are
words, marks, comments and decorators only; or nothing is passed on, and no function stands there.
-/
namespace SourceSpecs.Syntax

open Syntax.Tree Signature

namespace Form

variable {ρ : Type}

def YieldsList (limit : Nat) (call : ρ → Ending → Cursor → Outcome) (R : List Tree → Prop)
    (f : Form ρ) : Prop :=
  ∀ e c d nodes, f.read limit call e c = .fits nodes d → R nodes

section YieldsList

variable {limit : Nat} {call : ρ → Ending → Cursor → Outcome} {Q : Tree → Prop}
  {R S T : List Tree → Prop} {f g : Form ρ}

theorem yieldsList_seq (first : YieldsList limit call R f) (second : YieldsList limit call S g)
    (joined : ∀ ts us, R ts → S us → T (ts ++ us)) : YieldsList limit call T (seq f g) := by
  intro e c d nodes read
  obtain ⟨front, m, back, read_f, read_g, rfl⟩ := of_read_seq read
  exact joined _ _ (first _ _ _ _ read_f) (second _ _ _ _ read_g)

theorem yieldsList_alt (first : YieldsList limit call R f) (second : YieldsList limit call R g) :
    YieldsList limit call R (alt f g) := by
  intro e c d nodes read
  rcases of_read_alt read with read_f | ⟨_, read_g⟩
  · exact first _ _ _ _ read_f
  · exact second _ _ _ _ read_g

theorem yieldsList_field {x : Field} (inner : YieldsList limit call R f)
    (marked : ∀ ts, R ts → S (markLast x ts)) : YieldsList limit call S (field x f) := by
  intro e c d nodes read
  obtain ⟨unmarked, read_f, rfl⟩ := of_read_field read
  exact marked _ (inner _ _ _ _ read_f)

theorem yieldsList_within {e : Ending} (inner : YieldsList limit call R f) :
    YieldsList limit call R (within e f) := by
  intro e' c d nodes read
  exact inner _ _ _ _ read

end YieldsList

/-- Whether the form reads only leaves and nodes of the given kinds, none of which plays a part. -/
def keepsTo (leaves inner : Kind → Bool) (calls : ρ → Bool) : Form ρ → Bool
  | token k | glued k => leaves k.kind
  | node k _ => inner k
  | seq f g | alt f g => f.keepsTo leaves inner calls && g.keepsTo leaves inner calls
  | many f | within _ f | onward f => f.keepsTo leaves inner calls
  | rule r => calls r
  | field _ _ => false
  | nothing | absent _ | ended _ | finish => true

section KeepsTo

variable {limit : Nat} {call : ρ → Ending → Cursor → Outcome} {Q : Tree → Prop}
  {leaves inner : Kind → Bool} {calls : ρ → Bool}

theorem yields_of_keepsTo (comment : ∀ s, Q (.leaf .comment s))
    (leaf : ∀ k s, leaves k = true → Q (.leaf k s))
    (around : ∀ k s cs, inner k = true → Q (.node k none s cs))
    (called : ∀ r, calls r = true → Yields limit call Q (rule r)) (f : Form ρ)
    (kept : f.keepsTo leaves inner calls = true) : Yields limit call Q f := by
  induction f with
  | nothing => exact yields_nothing
  | token k => exact yields_token comment fun s => leaf k.kind s kept
  | glued k => exact yields_glued fun s => leaf k.kind s kept
  | seq f g ihf ihg =>
    rw [keepsTo, Bool.and_eq_true] at kept
    exact yields_seq (ihf kept.1) (ihg kept.2)
  | alt f g ihf ihg =>
    rw [keepsTo, Bool.and_eq_true] at kept
    exact yields_alt (ihf kept.1) (ihg kept.2)
  | many f ih => exact yields_many (ih kept)
  | absent f ih => exact yields_absent
  | rule r => exact called r kept
  | node k f ih => exact yields_node comment fun _ _ _ s cs _ => around k s cs kept
  | field x f ih => cases kept
  | within e f ih => exact yields_within (ih kept)
  | onward f ih => exact yields_onward (ih kept)
  | ended e => exact yields_ended
  | finish => exact yields_finish comment

end KeepsTo

def EndsInNode (nodes : List Tree) : Prop :=
  ∃ gap t, nodes = gap ++ [t] ∧ ∀ c ∈ gap, ∃ s, c = .leaf .comment s

def isNode (calls : ρ → Bool) : Form ρ → Bool
  | node _ _ => true
  | alt f g => f.isNode calls && g.isNode calls
  | within _ f => f.isNode calls
  | rule r => calls r
  | _ => false

section IsNode

variable {limit : Nat} {call : ρ → Ending → Cursor → Outcome}

theorem endsInNode_of_isNode (calls : ρ → Bool)
    (called : ∀ r, calls r = true → YieldsList limit call EndsInNode (rule r)) (f : Form ρ)
    (single : f.isNode calls = true) : YieldsList limit call EndsInNode f := by
  induction f with
  | node k f ih =>
    intro e c d nodes read
    obtain ⟨cs, read_f, rfl⟩ := of_read_node read
    exact ⟨_, _, rfl, comments_of_gap (fun s => ⟨s, rfl⟩) c⟩
  | alt f g ihf ihg =>
    rw [isNode, Bool.and_eq_true] at single
    exact yieldsList_alt (ihf single.1) (ihg single.2)
  | within e f ih => exact yieldsList_within (ih single)
  | rule r => exact called r single
  | _ => cases single

end IsNode

end Form

section Rules

variable {limit : Nat} {r : Rule}

theorem yieldsList_rule {R : List Tree → Prop}
    (own : ∀ depth, Form.YieldsList limit (readRule Rule.form limit depth) R r.form) (depth : Nat) :
    Form.YieldsList limit (readRule Rule.form limit depth) R (.rule r) := by
  cases depth with
  | zero =>
    intro e c d nodes read
    cases read
  | succ depth => exact own depth

theorem yields_rule {Q : Tree → Prop}
    (own : ∀ depth, Form.Yields limit (readRule Rule.form limit depth) Q r.form) (depth : Nat) :
    Form.Yields limit (readRule Rule.form limit depth) Q (.rule r) :=
  yieldsList_rule (R := fun nodes => ∀ t ∈ nodes, Q t) own depth

end Rules

namespace Tree

structure Plain (t : Tree) : Prop where
  bare : t.field = none
  decorates : t.kind = .decorator ∨ t.children = [] ∧ (t.kind = .comment ∨ t.isNamed = false)

theorem Plain.not_function {t : Tree} (h : t.Plain) : isFunction t = false := by
  rcases h.decorates with kind | ⟨_, kind | unnamed⟩
  · rw [isFunction, kind]
    rfl
  · rw [isFunction, kind]
    rfl
  · rw [isNamed] at unnamed
    rw [isFunction]
    split at unnamed
    · rename_i kind
      rw [kind]
      rfl
    · rename_i kind
      rw [kind]
      rfl
    · cases unnamed

inductive Exports : List Tree → Prop where
  | passes {before after : List Tree} {t : Tree}
      (part : t.field = some .declaration ∨ t.field = some .value)
      (plain : ∀ c ∈ before ++ after, c.Plain) : Exports (before ++ t :: after)
  | keeps {cs : List Tree} (others : ∀ c ∈ cs, c.field = none ∧ isFunction c = false) : Exports cs

section Exports

variable {cs ds : List Tree}

theorem Exports.behind (plain : ∀ c ∈ cs, c.Plain) (h : Exports ds) : Exports (cs ++ ds) := by
  cases h with
  | @passes before after t part around =>
    rw [← List.append_assoc]
    refine .passes part ?_
    intro c member
    rw [List.append_assoc] at member
    rcases List.mem_append.1 member with first | rest
    · exact plain c first
    · exact around c rest
  | keeps others =>
    refine .keeps ?_
    intro c member
    rcases List.mem_append.1 member with first | rest
    · exact ⟨(plain c first).bare, (plain c first).not_function⟩
    · exact others c rest

theorem markLast_append (x : Field) (front : List Tree) (t : Tree) :
    markLast x (front ++ [t]) = front ++ [t.as x] := by
  induction front with
  | nil => rfl
  | cons c front ih =>
    rw [List.cons_append, markLast, ih, List.cons_append]
    simp

theorem Exports.marked {x : Field} (passes : x = .declaration ∨ x = .value)
    (single : Form.EndsInNode cs) (plain : ∀ c ∈ ds, c.Plain) : Exports (markLast x cs ++ ds) := by
  obtain ⟨gap, t, rfl, comments⟩ := single
  have part : (t.as x).field = some x := by
    cases t
    rfl
  rw [markLast_append, List.append_assoc]
  refine .passes ?_ ?_
  · rw [part, Option.some.injEq, Option.some.injEq]
    exact passes
  · intro c member
    rcases List.mem_append.1 member with first | rest
    · obtain ⟨s, rfl⟩ := comments c first
      exact ⟨rfl, Or.inr ⟨rfl, Or.inl rfl⟩⟩
    · exact plain c rest

end Exports

/-- What is known of a statement by its kind. -/
structure Shaped (t : Tree) : Prop where
  comment : t.kind = .comment → t.children = []
  exports : t.kind = .exportStatement → Exports t.children

theorem Shaped.leaf (k : Kind) (s : Span) : (Tree.leaf k s).Shaped :=
  ⟨fun _ => rfl, fun _ => .keeps (by simp [Tree.leaf, children])⟩

end Tree

section Statements

open Form

variable {limit : Nat}

theorem plain_comment (s : Span) : (Tree.leaf .comment s).Plain := ⟨rfl, Or.inr ⟨rfl, Or.inl rfl⟩⟩

theorem plain_decorator (depth : Nat) :
    Yields limit (readRule Rule.form limit depth) Plain (.rule .decorator) :=
  yields_rule (fun _ => yields_node plain_comment fun _ _ _ _ _ _ => ⟨rfl, Or.inl rfl⟩) depth

def keepsPlain : Form Rule → Bool :=
  keepsTo (fun k => (Tree.leaf k ⟨0, 0⟩).isNamed == false) (fun _ => false) (· == .decorator)

theorem yields_plain (depth : Nat) {f : Form Rule} (plain : keepsPlain f = true) :
    Yields limit (readRule Rule.form limit depth) Plain f := by
  refine yields_of_keepsTo plain_comment ?_ ?_ ?_ f plain
  · intro k s unnamed
    exact ⟨rfl, Or.inr ⟨rfl, Or.inr (beq_iff_eq.1 unnamed)⟩⟩
  · intro k s cs other
    cases other
  · intro r decorator
    obtain rfl := beq_iff_eq.1 decorator
    exact plain_decorator depth

def Other (t : Tree) : Prop := t.field = none ∧ isFunction t = false

def keepsOther : Form Rule → Bool :=
  keepsTo (fun k => isFunction (.leaf k ⟨0, 0⟩) == false)
    (fun k => isFunction (.leaf k ⟨0, 0⟩) == false) (· == .expression false)

theorem other_node {k : Kind} (s : Span) (cs : List Tree)
    (other : (isFunction (.leaf k ⟨0, 0⟩) == false) = true) : Other (.node k none s cs) :=
  ⟨rfl, beq_iff_eq.1 other⟩

theorem yields_other (depth : Nat) {f : Form Rule} (other : keepsOther f = true) :
    Yields limit (readRule Rule.form limit depth) Other f := by
  refine yields_of_keepsTo (fun _ => ⟨rfl, rfl⟩) (fun k s => other_node s [])
    (fun k s cs => other_node s cs) ?_ f other
  intro r expression
  obtain rfl := beq_iff_eq.1 expression
  exact yields_rule (fun _ => yields_node (fun _ => ⟨rfl, rfl⟩) fun _ _ _ _ _ _ => ⟨rfl, rfl⟩) depth

theorem single_declaration (depth : Nat) :
    YieldsList limit (readRule Rule.form limit depth) EndsInNode (.rule .declaration) :=
  yieldsList_rule (fun _ => endsInNode_of_isNode (fun _ => false) (by simp)
    Grammar.declaration (by decide)) depth

theorem exports_declaration (depth : Nat) : YieldsList limit (readRule Rule.form limit depth) Exports
    (.field .declaration (.rule .declaration)) := by
  refine yieldsList_field (single_declaration depth) ?_
  intro ts single
  rw [← List.append_nil (markLast _ ts)]
  exact .marked (Or.inl rfl) single (by simp)

theorem exports_value (depth : Nat) {e : Ending} {f : Form Rule}
    (single : f.isNode (· == .expression false) = true) :
    YieldsList limit (readRule Rule.form limit depth) Exports
      (.seq (.field .value f) (Grammar.semicolon e)) := by
  have called (r : Rule) (expression : (r == .expression false) = true) :
      YieldsList limit (readRule Rule.form limit depth) EndsInNode (.rule r) := by
    obtain rfl := beq_iff_eq.1 expression
    exact yieldsList_rule (fun _ => endsInNode_of_isNode (fun _ => false) (by simp)
      (Grammar.expressionOf false) (by decide)) depth
  refine yieldsList_seq (R := fun nodes => ∃ ts, nodes = markLast .value ts ∧ EndsInNode ts)
    (S := fun nodes => ∀ c ∈ nodes, c.Plain) ?_ (yields_plain depth rfl) ?_
  · exact yieldsList_field (endsInNode_of_isNode _ called f single) fun ts ends => ⟨ts, rfl, ends⟩
  · rintro _ us ⟨ts, rfl, ends⟩ plain
    exact .marked (Or.inr rfl) ends plain

theorem exports_seq (depth : Nat) {f g : Form Rule} (plain : keepsPlain f = true)
    (rest : YieldsList limit (readRule Rule.form limit depth) Exports g) :
    YieldsList limit (readRule Rule.form limit depth) Exports (.seq f g) :=
  yieldsList_seq (R := fun nodes => ∀ c ∈ nodes, c.Plain) (yields_plain depth plain) rest
    fun _ _ => Exports.behind

theorem exports_of_other (depth : Nat) {f : Form Rule} (other : keepsOther f = true) :
    YieldsList limit (readRule Rule.form limit depth) Exports f := by
  intro e c d nodes read
  exact .keeps (yields_other depth other _ _ _ _ read)

theorem exports_default (depth : Nat) :
    YieldsList limit (readRule Rule.form limit depth) Exports Grammar.exportDefault :=
  exports_seq depth rfl (yieldsList_alt (exports_declaration depth)
    (yieldsList_alt (exports_value depth rfl) (exports_value depth rfl)))

theorem shaped_export (depth : Nat) :
    Yields limit (readRule Rule.form limit depth) Shaped Grammar.exportStatement := by
  refine yields_node (Shaped.leaf .comment) ?_
  intro e c d s cs read
  refine ⟨by simp [kind], fun _ => ?_⟩
  -- One case for each kind of export; the words before them are the same.
  refine exports_seq depth rfl ?_ _ _ _ _ read
  refine yieldsList_alt (exports_of_other depth rfl) (yieldsList_alt (exports_of_other depth rfl) ?_)
  refine yieldsList_alt (exports_default depth) (yieldsList_alt (exports_declaration depth) ?_)
  exact yieldsList_alt (exports_of_other depth rfl) (exports_of_other depth rfl)

def shapeless (k : Kind) : Bool := k != .comment && k != .exportStatement

theorem shaped_node {k : Kind} (s : Span) (cs : List Tree) (other : shapeless k = true) :
    Shaped (.node k none s cs) := by
  rw [shapeless, Bool.and_eq_true, bne_iff_ne, bne_iff_ne] at other
  exact ⟨fun h => absurd h other.1, fun h => absurd h other.2⟩

theorem yields_shaped (depth : Nat) (calls : Rule → Bool) {f : Form Rule}
    (called : ∀ r, calls r = true → Yields limit (readRule Rule.form limit depth) Shaped (.rule r))
    (kept : f.keepsTo (fun _ => true) shapeless calls = true) :
    Yields limit (readRule Rule.form limit depth) Shaped f :=
  yields_of_keepsTo (Shaped.leaf .comment) (fun k s _ => Shaped.leaf k s)
    (fun _ s cs => shaped_node s cs) called f kept

theorem shaped_statement (depth : Nat) :
    Yields limit (readRule Rule.form limit depth) Shaped (.rule .statement) := by
  refine yields_rule (fun depth => ?_) depth
  have called (r : Rule) (simple : (r == .block || r == .declaration) = true) :
      Yields limit (readRule Rule.form limit depth) Shaped (.rule r) := by
    have own (depth : Nat) : Yields limit (readRule Rule.form limit depth) Shaped r.form := by
      refine yields_shaped depth (fun _ => false) (by simp) ?_
      rcases Bool.or_eq_true_iff.1 simple with block | declaration
      · obtain rfl := beq_iff_eq.1 block
        rfl
      · obtain rfl := beq_iff_eq.1 declaration
        rfl
    exact yields_rule own depth
  exact yieldsList_alt (yields_shaped depth _ called rfl)
    (yieldsList_alt (shaped_export depth) (yields_shaped depth _ called rfl))

/-- The statements of a text, and the comments between them. -/
theorem shaped_of_parse? {t : List Char} {tree c : Tree} (parsed : parse? t = some tree)
    (child : c ∈ tree.children) : c.Shaped := by
  unfold parse? at parsed
  split at parsed
  · rename_i nodes next read
    obtain rfl := Option.some.inj parsed
    have program (depth : Nat) :
        Yields (t.length + 1) (readRule Rule.form (t.length + 1) depth) Shaped Grammar.program :=
      yields_shaped depth (· == .statement)
        (fun r statement => beq_iff_eq.1 statement ▸ shaped_statement depth) rfl
    exact yields_rule (r := .program) program _ _ _ _ _ read c child
  · cases parsed

end Statements

end SourceSpecs.Syntax
