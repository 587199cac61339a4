import SourceSpecs.Proofs.ExportShape
import SourceSpecs.Proofs.FirstMark
/-!
The nodes that a form reads in a given text: what they have in common, how the last one is told from
those before it, and which characters they stand for.
-/
namespace SourceSpecs.Syntax

open Syntax.Tree

namespace Tree

@[simp] theorem kind_as (x : Field) (t : Tree) : (t.as x).kind = t.kind := by
  cases t
  rfl

@[simp] theorem field_as (x : Field) (t : Tree) : (t.as x).field = some x := by
  cases t
  rfl

@[simp] theorem span_as (x : Field) (t : Tree) : (t.as x).span = t.span := by
  cases t
  rfl

@[simp] theorem children_as (x : Field) (t : Tree) : (t.as x).children = t.children := by
  cases t
  rfl

end Tree

variable {S : List Char} {f g : Form Rule} {r : Rule} {e : Ending} {c d : Cursor}
  {nodes : List Tree} {P Q : Tree → Prop} {R R' T : List Tree → Prop}

section Slices

theorem slice_of_reaches {between : List Char} (on : c.On S) (whole : c.rest = between ++ d.rest)
    (offset : d.offset = c.offset + between.length) :
    Span.slice ⟨c.offset, d.offset⟩ S = between := by
  rw [Span.slice, ← on, whole, offset, Nat.add_sub_cancel_left, List.take_left]

theorem Opens.exists_mem {p : Char → Bool} {between : List Char} (h : Opens p c d)
    (whole : c.rest = between ++ d.rest) (offset : d.offset = c.offset + between.length) :
    ∃ x ∈ between, p x = true := by
  obtain ⟨gap, passed, behind⟩ := (skipGap_moves c).reaches
  obtain ⟨x, first, opens⟩ := h.first
  have beyond := h.beyond
  obtain ⟨u, parts⟩ := List.head?_eq_some_iff.1 first
  have front : gap ++ [x] <+: between := by
    have stands : gap ++ [x] <+: c.rest := ⟨u, by rw [passed, parts, List.append_assoc]; rfl⟩
    refine List.prefix_of_prefix_length_le stands ⟨d.rest, whole.symm⟩ ?_
    rw [List.length_append, List.length_singleton]
    omega
  exact ⟨x, front.subset (List.mem_append_right gap (List.mem_singleton_self x)), opens⟩

end Slices

/-- The nodes that the form reads in the text have the property as a list. -/
def Gives (S : List Char) (R : List Tree → Prop) (f : Form Rule) : Prop :=
  ∀ e c d nodes, c.On S → f.reads? e c = some (nodes, d) → R nodes

section Gives

theorem Gives.mono (h : Gives S R f) (weaker : ∀ ts, R ts → T ts) : Gives S T f := by
  intro e c d nodes on read
  exact weaker nodes (h e c d nodes on read)

theorem gives_nothing (empty : R []) : Gives S R .nothing := by
  intro e c d nodes on read
  obtain ⟨rfl, _⟩ := Prod.mk.inj (Option.some.inj read)
  exact empty

theorem gives_seq (first : Gives S R f) (second : Gives S R' g)
    (joined : ∀ ts us, R ts → R' us → T (ts ++ us)) : Gives S T (.seq f g) := by
  intro e c d nodes on read
  rw [reads?_seq] at read
  obtain ⟨⟨front, m⟩, read_f, read⟩ := Option.bind_eq_some_iff.1 read
  obtain ⟨⟨behind, b⟩, read_g, same⟩ := Option.map_eq_some_iff.1 read
  obtain ⟨rfl, rfl⟩ := Prod.mk.inj same
  have further := on.reach (reaches_of_reads? read_f)
  exact joined _ _ (first e c m front on read_f) (second e m b behind further read_g)

theorem gives_alt (first : Gives S R f) (second : Gives S R g) : Gives S R (.alt f g) := by
  intro e c d nodes on read
  rw [reads?_alt, Option.or_eq_some_iff] at read
  rcases read with read_f | ⟨_, read_g⟩
  · exact first e c d nodes on read_f
  · exact second e c d nodes on read_g

theorem gives_opt (inner : Gives S R f) (empty : R []) : Gives S R (.opt f) :=
  gives_alt inner (gives_nothing empty)

theorem gives_rule (own : Gives S R r.form) : Gives S R (.rule r) := by
  intro e c d nodes on read
  rw [reads?_rule] at read
  exact own e c d nodes on read

theorem gives_within {e : Ending} (inner : Gives S R f) : Gives S R (.within e f) := by
  intro e' c d nodes on read
  exact inner e c d nodes on read

theorem gives_field {x : Field} (inner : Gives S R f) (marked : ∀ ts, R ts → T (markLast x ts)) :
    Gives S T (.field x f) := by
  intro e c d nodes on read
  rw [reads?_field] at read
  obtain ⟨⟨ts, b⟩, read_f, same⟩ := Option.map_eq_some_iff.1 read
  obtain ⟨rfl, rfl⟩ := Prod.mk.inj same
  exact marked ts (inner e c b ts on read_f)

def Joined (R R' : List Tree → Prop) (nodes : List Tree) : Prop :=
  ∃ ts us, nodes = ts ++ us ∧ R ts ∧ R' us

theorem gives_joined (first : Gives S R f) (second : Gives S R' g) :
    Gives S (Joined R R') (.seq f g) :=
  gives_seq first second fun ts us h k => ⟨ts, us, rfl, h, k⟩

theorem gives_all (first : Gives S (∀ t ∈ ·, Q t) f) (second : Gives S (∀ t ∈ ·, Q t) g) :
    Gives S (∀ t ∈ ·, Q t) (.seq f g) :=
  gives_seq first second fun _ _ h k => List.forall_mem_append.2 ⟨h, k⟩

theorem gives_many (inner : Gives S (∀ t ∈ ·, Q t) f) : Gives S (∀ t ∈ ·, Q t) (.many f) := by
  intro e c d nodes on read
  induction length : c.rest.length using Nat.strongRecOn generalizing c nodes with
  | ind n ih =>
    subst length
    rw [reads?_many] at read
    cases first : f.reads? e c with
    | none =>
      rw [first] at read
      obtain ⟨rfl, _⟩ := Prod.mk.inj (Option.some.inj read)
      simp
    | some x =>
      obtain ⟨front, m⟩ := x
      simp only [first] at read
      split at read
      · obtain ⟨rfl, _⟩ := Prod.mk.inj (Option.some.inj read)
        simp
      · rename_i apart
        obtain ⟨⟨behind, b⟩, later, same⟩ := Option.map_eq_some_iff.1 read
        obtain ⟨rfl, rfl⟩ := Prod.mk.inj same
        have reaches := reaches_of_reads? first
        have shorter : m.rest.length < c.rest.length := by
          obtain ⟨between, whole, offset⟩ := reaches
          rw [whole, List.length_append]
          omega
        have rest := ih _ shorter m behind (on.reach reaches) later rfl
        intro t member
        rcases List.mem_append.1 member with here | there
        · exact inner e c m front on first t here
        · exact rest t there

theorem gives_of_yields
    (yields : ∀ limit depth, Form.Yields limit (readRule Rule.form limit depth) Q f) :
    Gives S (∀ t ∈ ·, Q t) f := by
  intro e c d nodes _ read
  have whole := read_eq (f := f) (e := e) (Nat.le_refl c.rest.length)
  rw [read] at whole
  exact yields _ _ _ _ _ _ whole

end Gives

/-- A node that plays no part under its parent and is of one of the kinds. -/
structure Bare (kinds : Kind → Bool) (t : Tree) : Prop where
  bare : t.field = none
  kind : kinds t.kind = true

def keepsBare (kinds : Kind → Bool) : Form Rule → Bool :=
  Form.keepsTo kinds kinds fun r => r.form.keepsTo kinds kinds fun _ => false

theorem gives_bare (kinds : Kind → Bool) (comment : kinds .comment = true)
    (kept : keepsBare kinds f = true) : Gives S (∀ t ∈ ·, Bare kinds t) f := by
  refine gives_of_yields fun limit depth => ?_
  have own {calls : Rule → Bool} {g : Form Rule} (depth : Nat)
      (called : ∀ r, calls r = true →
        Form.Yields limit (readRule Rule.form limit depth) (Bare kinds) (.rule r))
      (kept : g.keepsTo kinds kinds calls = true) :
      Form.Yields limit (readRule Rule.form limit depth) (Bare kinds) g :=
    Form.yields_of_keepsTo (fun _ => ⟨rfl, comment⟩) (fun _ _ leaf => ⟨rfl, leaf⟩)
      (fun _ _ _ around => ⟨rfl, around⟩) called g kept
  refine own depth (fun r called => ?_) kept
  exact yields_rule (fun depth => own depth (by simp) called) depth

inductive Ends (P Q : Tree → Prop) : List Tree → Prop where
  | mk {front : List Tree} {t : Tree} (before : ∀ c ∈ front, P c) (last : Q t) :
      Ends P Q (front ++ [t])

inductive MayEnd (P Q : Tree → Prop) : List Tree → Prop where
  | mk {front : List Tree} {final : Option Tree} (before : ∀ c ∈ front, P c)
      (last : ∀ t ∈ final, Q t) : MayEnd P Q (front ++ final.toList)

section Ends

variable {P' Q' : Tree → Prop} {ts us : List Tree}

theorem Ends.mono (h : Ends P Q ts) (before : ∀ t, P t → P' t) (last : ∀ t, Q t → Q' t) :
    Ends P' Q' ts := by
  cases h with
  | mk front here => exact .mk (fun c member => before c (front c member)) (last _ here)

theorem Ends.all (h : Ends P Q ts) (before : ∀ t, P t → Q' t) (last : ∀ t, Q t → Q' t) :
    ∀ t ∈ ts, Q' t := by
  cases h with
  | mk front here =>
    intro t member
    rcases List.mem_append.1 member with first | rest
    · exact before t (front t first)
    · obtain rfl := List.mem_singleton.1 rest
      exact last t here

theorem Ends.may (h : Ends P Q ts) : MayEnd P Q ts := by
  cases h with
  | @mk front t before last =>
    have one : ∀ u ∈ some t, Q u := by simpa using last
    exact .mk before one

theorem MayEnd.nil : MayEnd P Q [] := by
  have neither : ∀ u ∈ (none : Option Tree), Q u := by simp
  exact .mk (List.forall_mem_nil P) neither

theorem Ends.behind (front : ∀ t ∈ ts, P t) (h : Ends P Q us) : Ends P Q (ts ++ us) := by
  cases h with
  | mk before last =>
    rw [← List.append_assoc]
    exact .mk (List.forall_mem_append.2 ⟨front, before⟩) last

theorem Ends.mark {x : Field} (h : Ends P Q ts) (marked : ∀ t, Q t → Q' (t.as x)) :
    Ends P Q' (markLast x ts) := by
  cases h with
  | mk before last =>
    rw [markLast_append]
    exact .mk before (marked _ last)

end Ends

def IsComment (S : List Char) (t : Tree) : Prop :=
  ∃ s, t = .leaf .comment s ∧ (S.drop s.start).head? = some '/'

theorem comments_of_skipGap (on : c.On S) : ∀ t ∈ (skipGap c).1, IsComment S t := by
  intro t member
  obtain ⟨s, inside, rfl⟩ := List.mem_map.1 member
  exact ⟨s, rfl, gap_comments (g := .blank) (o := c.offset) (t := c.rest) on rfl (by simp) s inside⟩

theorem IsComment.bare {kinds : Kind → Bool} (comment : kinds .comment = true) {t : Tree}
    (h : IsComment S t) : Bare kinds t := by
  obtain ⟨s, rfl, _⟩ := h
  exact ⟨rfl, comment⟩

theorem gives_node {k : Kind} (inner : Gives S R f) (around : ∀ s cs, R cs → Q (.node k none s cs)) :
    Gives S (Ends (IsComment S) Q) (.node k f) := by
  intro e c d nodes on read
  rw [reads?_node] at read
  obtain ⟨⟨cs, b⟩, read_f, same⟩ := Option.map_eq_some_iff.1 read
  obtain ⟨rfl, rfl⟩ := Prod.mk.inj same
  have given := inner e _ b cs (on.reach (skipGap_moves c).reaches) read_f
  exact .mk (comments_of_skipGap on) (around _ cs given)

theorem gives_part {x : Field} {N : Tree → Prop} (kinds : Kind → Bool) (comment : kinds .comment = true)
    (inner : Gives S (Ends (IsComment S) Q) f) (marked : ∀ t, Q t → N (t.as x)) :
    Gives S (Ends (Bare kinds) N) (.field x f) :=
  gives_field inner fun _ ends => (ends.mark marked).mono (fun _ h => h.bare comment) fun _ h => h

theorem exists_behind_mark {w : List Char} (still : skipGap c = ([], c))
    (h : (Form.seq (.token (.symbol w [])) f).reads? e c = some (nodes, d)) :
    ∃ m behind, f.reads? e m = some (behind, d) ∧ c.rest = w ++ m.rest ∧
      m.offset = c.offset + w.length ∧
      nodes = .leaf (.symbol w) ⟨c.offset, m.offset⟩ :: behind := by
  rw [reads?_seq, reads?_token, still] at h
  obtain ⟨⟨front, m⟩, mark, h⟩ := Option.bind_eq_some_iff.1 h
  obtain ⟨⟨behind, b⟩, read_f, same⟩ := Option.map_eq_some_iff.1 h
  obtain ⟨rfl, rfl⟩ := Prod.mk.inj same
  obtain ⟨⟨t, m'⟩, token, same⟩ := Option.map_eq_some_iff.1 mark
  obtain ⟨rfl, rfl⟩ := Prod.mk.inj same
  obtain ⟨n, length, same⟩ := Option.map_eq_some_iff.1 token
  obtain ⟨rfl, rfl⟩ := Prod.mk.inj same
  obtain ⟨u, parts, rfl⟩ := exists_of_symbolLength length
  refine ⟨_, behind, read_f, ?_, rfl, rfl⟩
  change c.rest = _ at parts
  rw [parts, List.drop_left]

def Form.isSingle {ρ : Type} (calls : ρ → Bool) : Form ρ → Bool
  | token _ | node _ _ => true
  | alt f g => f.isSingle calls && g.isSingle calls
  | within _ f => f.isSingle calls
  | rule r => calls r
  | _ => false

def Rule.isSingle (r : Rule) : Bool := r.form.isSingle fun _ => false

theorem exists_single {calls : Rule → Bool}
    (called : ∀ r, calls r = true → ∀ e, (Form.rule r).reads? e c = some (nodes, d) →
      ∃ t, nodes = (skipGap c).1 ++ [t] ∧ t.span = ⟨(skipGap c).2.offset, d.offset⟩)
    (f : Form Rule) (single : f.isSingle calls = true) (h : f.reads? e c = some (nodes, d)) :
    ∃ t, nodes = (skipGap c).1 ++ [t] ∧ t.span = ⟨(skipGap c).2.offset, d.offset⟩ := by
  induction f generalizing e with
  | token k =>
    rw [reads?_token] at h
    obtain ⟨⟨t, b⟩, read, same⟩ := Option.map_eq_some_iff.1 h
    obtain ⟨rfl, rfl⟩ := Prod.mk.inj same
    obtain ⟨n, _, same⟩ := Option.map_eq_some_iff.1 read
    obtain ⟨rfl, rfl⟩ := Prod.mk.inj same
    exact ⟨_, rfl, rfl⟩
  | node k f ih =>
    rw [reads?_node] at h
    obtain ⟨⟨cs, b⟩, _, same⟩ := Option.map_eq_some_iff.1 h
    obtain ⟨rfl, rfl⟩ := Prod.mk.inj same
    exact ⟨_, rfl, rfl⟩
  | alt f g ihf ihg =>
    rw [Form.isSingle, Bool.and_eq_true] at single
    rw [reads?_alt, Option.or_eq_some_iff] at h
    rcases h with read_f | ⟨_, read_g⟩
    · exact ihf single.1 read_f
    · exact ihg single.2 read_g
  | within e' f ih => exact ih single h
  | rule r => exact called r single e h
  | _ => cases single

theorem single_of_reads? (single : f.isSingle Rule.isSingle = true)
    (h : f.reads? e c = some (nodes, d)) :
    ∃ t, nodes = (skipGap c).1 ++ [t] ∧ t.span = ⟨(skipGap c).2.offset, d.offset⟩ := by
  refine exists_single (fun r called e h => ?_) f single h
  rw [reads?_rule] at h
  exact exists_single (by simp) r.form called h

/-- A single node of one of the kinds, behind comments. -/
theorem gives_single (kinds : Kind → Bool) (comment : kinds .comment = true)
    (single : f.isSingle Rule.isSingle = true) (kept : keepsBare kinds f = true) :
    Gives S (Ends (IsComment S) (Bare kinds)) f := by
  intro e c d nodes on read
  have bare := gives_bare kinds comment kept e c d nodes on read
  obtain ⟨t, rfl, _⟩ := single_of_reads? single read
  exact .mk (comments_of_skipGap on) (bare t (by simp))

end SourceSpecs.Syntax
