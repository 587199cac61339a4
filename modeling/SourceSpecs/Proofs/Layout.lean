import SourceSpecs.Proofs.FormInversion
import SourceSpecs.Proofs.TokenLength
import SourceSpecs.Syntax.Grammar
/-!
How the nodes of a tree lie in its text. A node takes up some of the text, its children lie one
behind another within it, and no two of them cover the same stretch.
-/
namespace SourceSpecs.Syntax

/-- The stretches lie one behind another between two offsets, and none of them is empty. -/
def InOrder (a : Nat) : List Span → Nat → Prop
  | [], b => a ≤ b
  | s :: ss, b => a ≤ s.start ∧ s.start < s.stop ∧ InOrder s.stop ss b

section InOrder

variable {a b c : Nat} {ss ss' : List Span}

theorem InOrder.after (before : a ≤ b) (h : InOrder b ss c) : InOrder a ss c := by
  cases ss with
  | nil => exact Nat.le_trans before h
  | cons s ss => exact ⟨Nat.le_trans before h.1, h.2⟩

theorem InOrder.append (h : InOrder a ss b) (k : InOrder b ss' c) : InOrder a (ss ++ ss') c := by
  induction ss generalizing a with
  | nil => exact k.after h
  | cons s ss ih => exact ⟨h.1, h.2.1, ih h.2.2⟩

theorem InOrder.within (h : InOrder a ss b) : ∀ s ∈ ss, a ≤ s.start ∧ s.start < s.stop := by
  induction ss generalizing a with
  | nil => simp
  | cons s ss ih =>
    intro x member
    rcases List.mem_cons.1 member with rfl | member
    · exact ⟨h.1, h.2.1⟩
    · have := ih h.2.2 x member
      have := h.1
      have := h.2.1
      omega

theorem InOrder.sublist (h : InOrder a ss b) (some_of : ss'.Sublist ss) : InOrder a ss' b := by
  induction some_of generalizing a with
  | slnil => exact h
  | cons s _ ih => exact ih (h.2.2.after (Nat.le_trans h.1 (Nat.le_of_lt h.2.1)))
  | cons_cons s _ ih => exact ⟨h.1, h.2.1, ih h.2.2⟩

theorem InOrder.pairwise (h : InOrder a ss b) : ss.Pairwise (· ≠ ·) := by
  induction ss generalizing a with
  | nil => exact .nil
  | cons s ss ih =>
    refine .cons (fun x member => ?_) (ih h.2.2)
    have := h.2.2.within x member
    rintro rfl
    omega

end InOrder

inductive Laid : Tree → Prop where
  | node {k : Kind} {x : Option Field} {s : Span} {cs : List Tree}
      (order : InOrder s.start (cs.map Tree.span) s.stop) (below : ∀ c ∈ cs, Laid c) :
      Laid (.node k x s cs)

theorem Laid.as (x : Field) {t : Tree} (h : Laid t) : Laid (t.as x) := by
  cases h with
  | node order below => exact .node order below

theorem Laid.child {t c : Tree} (h : Laid t) (child : c ∈ t.children) : Laid c := by
  cases h with
  | node order below => exact below c child

theorem Laid.sublist {t : Tree} {ts : List Tree} (h : Laid t) (some_of : ts.Sublist t.children) :
    InOrder t.span.start (ts.map Tree.span) t.span.stop := by
  cases h with
  | node order below => exact order.sublist (some_of.map Tree.span)

/-- How a reading that fits has moved. -/
structure Moves (eats : Bool) (c d : Cursor) : Prop where
  reaches : c.Reaches d
  progress : eats = true → c.offset < d.offset

structure Steps (c : Cursor) (nodes : List Tree) (d : Cursor) : Prop where
  order : InOrder c.offset (nodes.map Tree.span) d.offset
  laid : ∀ t ∈ nodes, Laid t

section Steps

variable {b b' : Bool} {c d e : Cursor} {nodes more : List Tree}

theorem Moves.refl (c : Cursor) : Moves false c c := ⟨Cursor.Reaches.refl c, by simp⟩

theorem Moves.append (h : Moves b c d) (k : Moves b' d e) : Moves (b || b') c e where
  reaches := h.reaches.trans k.reaches
  progress := by
    intro either
    have := h.reaches.offset_le
    have := k.reaches.offset_le
    rcases Bool.or_eq_true _ _ ▸ either with first | second
    · have := h.progress first
      omega
    · have := k.progress second
      omega

theorem Moves.mono (h : Moves b c d) (le : b' = true → b = true) : Moves b' c d :=
  ⟨h.reaches, fun eats => h.progress (le eats)⟩

theorem Moves.idle (h : Moves b c d) : Moves false c d := h.mono (by simp)

theorem Steps.refl (c : Cursor) : Steps c [] c := ⟨Nat.le_refl _, by simp⟩

theorem Steps.append (h : Steps c nodes d) (k : Steps d more e) : Steps c (nodes ++ more) e where
  order := by
    rw [List.map_append]
    exact h.order.append k.order
  laid := by
    intro t member
    rcases List.mem_append.1 member with member | member
    · exact h.laid t member
    · exact k.laid t member

theorem map_span_markLast (x : Field) (ts : List Tree) :
    (markLast x ts).map Tree.span = ts.map Tree.span := by
  fun_induction markLast x ts with
  | case1 => rfl
  | case2 t => cases t; rfl
  | case3 t ts _ ih => rw [List.map_cons, ih, List.map_cons]

theorem laid_markLast (x : Field) {ts : List Tree} (h : ∀ t ∈ ts, Laid t) :
    ∀ t ∈ markLast x ts, Laid t := by
  fun_induction markLast x ts with
  | case1 => exact h
  | case2 t =>
    intro u member
    obtain rfl := List.mem_singleton.1 member
    exact (h t List.mem_cons_self).as x
  | case3 t ts _ ih =>
    intro u member
    rcases List.mem_cons.1 member with rfl | member
    · exact h u List.mem_cons_self
    · exact ih (fun v inside => h v (List.mem_cons_of_mem t inside)) u member

theorem Steps.markLast (x : Field) (h : Steps c nodes d) : Steps c (markLast x nodes) d :=
  ⟨by rw [map_span_markLast]; exact h.order, laid_markLast x h.laid⟩

theorem Steps.node (h : Steps c nodes d) (progress : c.offset < d.offset) (k : Kind) :
    Steps c [.node k none ⟨c.offset, d.offset⟩ nodes] d where
  order := ⟨Nat.le_refl _, progress, Nat.le_refl _⟩
  laid := by
    intro t member
    obtain rfl := List.mem_singleton.1 member
    exact .node h.order h.laid

end Steps

def Gap.From : Gap → Cursor → Cursor → Prop
  | .blank, c, d => c = d
  | .lineComment start, c, d => c.offset = start ∧ c.offset < d.offset ∧ c.Reaches d
  | .blockComment start, c, d => c = start ∧ c.offset < d.offset ∧ c.Reaches d

theorem gap_inOrder {g : Gap} {o : Nat} {t : List Char} {c : Cursor} (begun : g.From c ⟨o, t⟩) :
    c.Reaches (gap g o t).2 ∧ InOrder c.offset (gap g o t).1 (gap g o t).2.offset := by
  fun_induction gap g o t generalizing c with
  | case1 o t ih =>
    obtain rfl : c = _ := begun
    exact ih ⟨rfl, by simp, reaches_cons_cons _ _ _ _⟩
  | case2 o t ih =>
    obtain rfl : c = _ := begun
    exact ih ⟨rfl, by simp, reaches_cons_cons _ _ _ _⟩
  | case3 o x t _ _ _ ih =>
    obtain rfl : c = _ := begun
    have behind := ih (c := ⟨o + 1, t⟩) rfl
    refine ⟨(reaches_cons o x t).trans behind.1, ?_⟩
    exact behind.2.after (Nat.le_succ o)
  | case4 o x t _ _ _ =>
    obtain rfl : c = _ := begun
    exact ⟨Cursor.Reaches.refl _, Nat.le_refl _⟩
  | case5 o =>
    obtain rfl : c = _ := begun
    exact ⟨Cursor.Reaches.refl _, Nat.le_refl _⟩
  | case6 start o x t _ comments next e ih =>
    obtain ⟨rfl, before, reaches⟩ := begun
    have behind := ih (c := ⟨o + 1, t⟩) rfl
    rw [e] at behind
    refine ⟨(reaches.trans (reaches_cons o x t)).trans behind.1, Nat.le_refl _, before, ?_⟩
    exact behind.2.after (Nat.le_succ o)
  | case7 start o x t _ ih =>
    obtain ⟨rfl, before, reaches⟩ := begun
    exact ih ⟨rfl, Nat.lt_succ_of_lt before, reaches.trans (reaches_cons o x t)⟩
  | case8 start o =>
    obtain ⟨rfl, before, reaches⟩ := begun
    exact ⟨reaches, Nat.le_refl _, before, Nat.le_refl _⟩
  | case9 start o t comments next e ih =>
    obtain ⟨rfl, before, reaches⟩ := begun
    have behind := ih (c := ⟨o + 2, t⟩) rfl
    rw [e] at behind
    refine ⟨(reaches.trans (reaches_cons_cons o _ _ t)).trans behind.1, Nat.le_refl _, ?_, behind.2⟩
    exact Nat.lt_add_right 2 before
  | case10 start o x t _ ih =>
    obtain ⟨rfl, before, reaches⟩ := begun
    exact ih ⟨rfl, Nat.lt_succ_of_lt before, reaches.trans (reaches_cons o x t)⟩
  | case11 start o =>
    obtain ⟨rfl, _, _⟩ := begun
    exact ⟨Cursor.Reaches.refl _, Nat.le_refl _⟩

theorem skipGap_moves (c : Cursor) : Moves false c (skipGap c).2 :=
  ⟨(gap_inOrder (g := .blank) (c := c) (o := c.offset) (t := c.rest) rfl).1, by simp⟩

theorem skipGap_steps (c : Cursor) : Steps c (skipGap c).1 (skipGap c).2 := by
  obtain ⟨_, order⟩ := gap_inOrder (g := .blank) (c := c) (o := c.offset) (t := c.rest) rfl
  refine ⟨?_, ?_⟩
  · rw [skipGap, List.map_map]
    exact (List.map_id _).symm ▸ order
  · intro t member
    obtain ⟨s, inside, rfl⟩ := List.mem_map.1 member
    exact .node (Nat.le_of_lt (order.within s inside).2) (by simp)

theorem Token.read_moves {k : Token} {c d : Cursor} {t : Tree} (h : k.read c = some (t, d)) :
    Moves k.isProper c d := by
  obtain ⟨n, length, same⟩ := Option.map_eq_some_iff.1 h
  obtain ⟨rfl, rfl⟩ := Prod.mk.inj same
  have bound := Token.length?_le length
  refine ⟨⟨c.rest.take n, by simp, by simp [bound]⟩, fun proper => ?_⟩
  have := Token.length?_pos proper length
  simp only
  omega

theorem Token.read_steps {k : Token} (proper : k.isProper = true) {c d : Cursor} {t : Tree}
    (h : k.read c = some (t, d)) : Steps c [t] d := by
  have progress := (Token.read_moves h).progress proper
  obtain ⟨n, length, same⟩ := Option.map_eq_some_iff.1 h
  obtain ⟨rfl, rfl⟩ := Prod.mk.inj same
  refine ⟨⟨Nat.le_refl _, progress, Nat.le_refl _⟩, ?_⟩
  intro t member
  obtain rfl := List.mem_singleton.1 member
  exact .node (Nat.le_add_right _ _) (by simp)

namespace Form

variable {ρ : Type}

/-- Whether the form takes something in wherever it fits, given which rules do. -/
def eats (rules : ρ → Bool) : Form ρ → Bool
  | token k | glued k => k.isProper
  | seq f g => f.eats rules || g.eats rules
  | alt f g => f.eats rules && g.eats rules
  | rule r => rules r
  | node _ f | field _ f | within _ f | onward f => f.eats rules
  | nothing | many _ | absent _ | ended _ | finish => false

def isSolid (rules : ρ → Bool) : Form ρ → Bool
  | token k | glued k => k.isProper
  | seq f g | alt f g => f.isSolid rules && g.isSolid rules
  | node _ f => f.eats rules && f.isSolid rules
  | many f | field _ f | within _ f | onward f => f.isSolid rules
  | nothing | absent _ | rule _ | ended _ | finish => true

variable {rules : ρ → Bool} {limit : Nat} {call : ρ → Ending → Cursor → Outcome}

theorem read_moves (calls : ∀ r e c nodes d, call r e c = .fits nodes d → Moves (rules r) c d)
    (f : Form ρ) {e : Ending} {c d : Cursor} {nodes : List Tree}
    (h : f.read limit call e c = .fits nodes d) : Moves (f.eats rules) c d := by
  induction f generalizing e c d nodes with
  | nothing =>
    cases h
    exact .refl c
  | token k =>
    obtain ⟨t, read_k, rfl⟩ := of_read_token h
    exact ((skipGap_moves c).append (Token.read_moves read_k)).mono (by simp [eats])
  | glued k =>
    obtain ⟨t, read_k, rfl⟩ := of_read_glued h
    exact Token.read_moves read_k
  | seq f g ihf ihg =>
    obtain ⟨front, m, back, read_f, read_g, rfl⟩ := of_read_seq h
    exact (ihf read_f).append (ihg read_g)
  | alt f g ihf ihg =>
    rcases of_read_alt h with read_f | ⟨_, read_g⟩
    · exact (ihf read_f).mono fun both => (Bool.and_eq_true _ _ ▸ both).1
    · exact (ihg read_g).mono fun both => (Bool.and_eq_true _ _ ▸ both).2
  | many f ih =>
    obtain ⟨_, rounds⟩ := rounds_of_read_many h
    clear h
    induction rounds with
    | done c => exact .refl c
    | round reads _ _ later => exact (ih reads).idle.append later
  | absent f ih =>
    obtain ⟨_, rfl, rfl⟩ := of_read_absent h
    exact .refl d
  | rule r => exact calls r e c nodes d h
  | node k f ih =>
    obtain ⟨cs, read_f, rfl⟩ := of_read_node h
    exact ((skipGap_moves c).append (ih read_f)).mono (by simp [eats])
  | field x f ih =>
    obtain ⟨inner, read_f, rfl⟩ := of_read_field h
    exact ih read_f
  | within e' f ih => exact ih h
  | onward f ih => exact ih (of_read_onward h).2
  | ended e' =>
    obtain ⟨_, rfl, rfl⟩ := of_read_ended h
    exact .refl d
  | finish =>
    obtain ⟨_, rfl, rfl⟩ := of_read_finish h
    exact skipGap_moves c

/-- The nodes that a form reads lie in order, if those of the rules do. -/
theorem read_steps (moves : ∀ r e c nodes d, call r e c = .fits nodes d → Moves (rules r) c d)
    (calls : ∀ r e c nodes d, call r e c = .fits nodes d → Steps c nodes d) (f : Form ρ)
    (solid : f.isSolid rules = true) {e : Ending} {c d : Cursor} {nodes : List Tree}
    (h : f.read limit call e c = .fits nodes d) : Steps c nodes d := by
  induction f generalizing e c d nodes with
  | nothing =>
    cases h
    exact .refl c
  | token k =>
    obtain ⟨t, read_k, rfl⟩ := of_read_token h
    exact (skipGap_steps c).append (Token.read_steps solid read_k)
  | glued k =>
    obtain ⟨t, read_k, rfl⟩ := of_read_glued h
    exact Token.read_steps solid read_k
  | seq f g ihf ihg =>
    rw [isSolid, Bool.and_eq_true] at solid
    obtain ⟨front, m, back, read_f, read_g, rfl⟩ := of_read_seq h
    exact (ihf solid.1 read_f).append (ihg solid.2 read_g)
  | alt f g ihf ihg =>
    rw [isSolid, Bool.and_eq_true] at solid
    rcases of_read_alt h with read_f | ⟨_, read_g⟩
    · exact ihf solid.1 read_f
    · exact ihg solid.2 read_g
  | many f ih =>
    obtain ⟨_, rounds⟩ := rounds_of_read_many h
    clear h
    induction rounds with
    | done c => exact .refl c
    | round reads _ _ later => exact (ih solid reads).append later
  | absent f ih =>
    obtain ⟨_, rfl, rfl⟩ := of_read_absent h
    exact .refl d
  | rule r => exact calls r e c nodes d h
  | node k f ih =>
    rw [isSolid, Bool.and_eq_true] at solid
    obtain ⟨cs, read_f, rfl⟩ := of_read_node h
    have progress := (read_moves moves f read_f).progress solid.1
    exact (skipGap_steps c).append ((ih solid.2 read_f).node progress k)
  | field x f ih =>
    obtain ⟨inner, read_f, rfl⟩ := of_read_field h
    exact (ih solid read_f).markLast x
  | within e' f ih => exact ih solid h
  | onward f ih => exact ih solid (of_read_onward h).2
  | ended e' =>
    obtain ⟨_, rfl, rfl⟩ := of_read_ended h
    exact .refl d
  | finish =>
    obtain ⟨_, rfl, rfl⟩ := of_read_finish h
    exact skipGap_steps c

end Form

namespace Rule

def eats (r : Rule) : Bool := r != .program

theorem isSolid_form (r : Rule) : r.form.isSolid eats = true ∧ (r.eats = true → r.form.eats eats = true) := by
  have checked : (all.all fun r => r.form.isSolid eats && (!r.eats || r.form.eats eats)) = true := by
    decide +kernel
  have here := List.all_eq_true.1 checked r (mem_all r)
  rw [Bool.and_eq_true] at here
  refine ⟨here.1, fun eats => ?_⟩
  simpa [eats] using here.2

end Rule

section Rules

variable {limit depth : Nat} {r : Rule} {e : Ending} {c d : Cursor} {nodes : List Tree}

theorem readRule_moves (h : readRule Rule.form limit depth r e c = .fits nodes d) :
    Moves r.eats c d := by
  induction depth generalizing r e c d nodes with
  | zero => cases h
  | succ depth ih =>
    rw [readRule] at h
    exact (Form.read_moves (fun r e c nodes d inner => ih inner) r.form h).mono r.isSolid_form.2

theorem readRule_steps (h : readRule Rule.form limit depth r e c = .fits nodes d) :
    Steps c nodes d := by
  induction depth generalizing r e c d nodes with
  | zero => cases h
  | succ depth ih =>
    rw [readRule] at h
    exact Form.read_steps (fun r e c nodes d inner => readRule_moves inner)
      (fun r e c nodes d inner => ih inner) r.form r.isSolid_form.1 h

end Rules

/-- The tree of a text is laid out in order. -/
theorem laid_of_parse? {t : List Char} {tree : Tree} (parsed : parse? t = some tree) : Laid tree := by
  unfold parse? at parsed
  split at parsed
  · rename_i nodes next read
    obtain rfl := Option.some.inj parsed
    have steps := readRule_steps read
    exact .node steps.order steps.laid
  · cases parsed

end SourceSpecs.Syntax
