import SourceSpecs.Proofs.EmbeddedText
/-!
Where a form may lead that is read at a place of a text among others. If every step is known to
lead to the same place in the text alone and in the whole, both readings agree.
-/
namespace SourceSpecs.Syntax

def Token.leadsFrom (k : Token) (l : List Opening) : Place → Option Leads
  | .start => if k.refused false then some [] else k.leads l
  | .inside => k.leads l
  | .template => none
  | .border => if k.refused false then some [] else none
  | .beyond last => if k.refused last then some [] else none

def gather (step : List Opening × Place → Option Leads) : Leads → Option Leads
  | [] => some []
  | x :: xs => (step x).bind fun a => (gather step xs).map (a ∪ ·)

/-- Where a rule leads that keeps the brackets balanced. No text ends between brackets. -/
def ruleLeads {ρ : Type} (places : ρ → Place → Option (List Place)) (r : ρ)
    (l : List Opening) (p : Place) : Option Leads :=
  (places r p).map fun qs => (qs.filter fun q => l == [] || q != .border).map (l, ·)

def refusal (outs : Option Leads) (stays : Leads) : Option Leads :=
  if outs = some [] then some stays else none

def staying (outs : Option Leads) : Option Leads :=
  outs.bind fun xs => if xs.all fun x => x.2.isWithin then some xs else none

/-- Where reading the form leads, with the brackets in `l` open, if that is known. -/
def passage {ρ : Type} (places : ρ → Place → Option (List Place)) :
    Form ρ → List Opening → Place → Option Leads
  | .nothing, l, p => some [(l, p)]
  | .token k, l, p => k.leadsFrom l p
  | .glued k, l, .template => k.leadsGlued l
  | .glued _, _, _ => none
  | .seq f g, l, p => (passage places f l p).bind (gather fun x => passage places g x.1 x.2)
  | .alt f g, l, p => (passage places f l p).bind fun a => (passage places g l p).map (a ∪ ·)
  | .many f, l, .inside =>
    (passage places f l .inside).bind fun outs =>
      if outs ⊆ [(l, .inside)] then some [(l, .inside)]
      else if outs ⊆ [(l, .inside), (l, .border)] then
        refusal (passage places f l .border) [(l, .inside), (l, .border)]
      else none
  | .many f, l, .template =>
    (passage places f l .template).bind fun outs =>
      if outs ⊆ [(l, .template)] then some [(l, .template)] else none
  | .many f, l, p => refusal (passage places f l p) [(l, p)]
  | .absent f, l, p => (passage places f l p).map fun _ => [(l, p)]
  | .rule r, l, p => ruleLeads places r l p
  | .node _ f, l, .start =>
    if passage places f l (.beyond false) = some [] then some []
    else staying (passage places f l .inside)
  | .node _ f, l, .inside => staying (passage places f l .inside)
  | .node _ _, _, .template => none
  | .node _ f, l, .border => refusal (passage places f l (.beyond false)) []
  | .node _ f, l, .beyond last => refusal (passage places f l (.beyond last)) []
  | .field _ f, l, p => passage places f l p
  | .within _ f, l, p => passage places f l p
  | .onward f, l, .inside => passage places f l .inside
  | .onward f, l, .border => passage places f l .border
  | .onward _, _, _ => none
  | .ended _, l, .inside => some [(l, .inside)]
  | .ended _, l, .border => some [(l, .border)]
  | .ended _, _, _ => none
  | .finish, _, _ => none

namespace Setting

variable (s : Setting)

/-- What two readings come to, the first of which came to an answer. -/
def Agree (around : List Opening) (outs : Leads) : Outcome → Outcome → Prop
  | .tooDeep, _ => True
  | .misfit, .misfit => True
  | .fits nodes d, .fits nodes' d' =>
    s.Echo nodes nodes' ∧ ∃ x ∈ outs, s.Stands around x d d'
  | _, _ => False

variable {s} {around l : List Opening} {outs outs' : Leads} {o o' : Outcome} {c c' : Cursor}

theorem Agree.mono (h : s.Agree around outs o o') (sub : ∀ x ∈ outs, x ∈ outs') :
    s.Agree around outs' o o' := by
  cases o <;> cases o' <;> try exact h
  obtain ⟨echo, x, member, stands⟩ := h
  exact ⟨echo, x, sub x member, stands⟩

theorem gather_mem {step : List Opening × Place → Option Leads} {xs : Leads} (h : gather step xs = some outs)
    {x : List Opening × Place} (member : x ∈ xs) : ∃ a, step x = some a ∧ ∀ y ∈ a, y ∈ outs := by
  induction xs generalizing outs with
  | nil => cases member
  | cons z xs ih =>
    obtain ⟨a, first, h⟩ := Option.bind_eq_some_iff.1 h
    obtain ⟨b, rest, rfl⟩ := Option.map_eq_some_iff.1 h
    rcases List.mem_cons.1 member with rfl | member
    · exact ⟨a, first, fun y inside => List.mem_union_iff.2 (Or.inl inside)⟩
    · obtain ⟨a', found, inside⟩ := ih rest member
      exact ⟨a', found, fun y k => List.mem_union_iff.2 (Or.inr (inside y k))⟩

theorem stands_of_at {x : List Opening × Place} (here : At around x c.rest) (moved : s.Moved c c') :
    s.Stands around x c c' := by
  obtain ⟨l, p⟩ := x
  cases p with
  | inside => exact ⟨here, moved⟩
  | template => exact ⟨here, moved⟩
  | border => exact ⟨here, moved⟩
  | start => exact here.elim
  | beyond last => exact here.elim

section

variable {ρ : Type} {limit limit' : Nat} {call call' : ρ → Ending → Cursor → Outcome} {e : Ending}

theorem read_token_quiet {k : Token} {last : Bool} (refused : k.refused last = true)
    (quiet : Quiet last c) : (Form.token k).read limit call e c = .misfit := by
  obtain ⟨d, gap, beyond⟩ := quiet
  rw [Form.read, gap]
  simp only [Token.read, Token.length?_beyond refused beyond, Option.map_none]

theorem read_here {k : Token} {d d' : Cursor} (moved : s.Moved d d')
    (leading : Leading around outs d.rest (k.length? d.rest) (k.length? (d.rest ++ s.behind))) :
    (k.read d = none ∧ k.read d' = none) ∨
      ∃ t b t' b', k.read d = some (t, b) ∧ k.read d' = some (t', b') ∧
        Echoes s.text s.whole s.before.length t t' ∧ ∃ x ∈ outs, s.Stands around x b b' := by
  obtain ⟨same, within⟩ := leading
  rw [Token.read, Token.read, moved.moved]
  simp only [same]
  cases length : k.length? d.rest with
  | none => exact Or.inl ⟨rfl, rfl⟩
  | some n =>
    obtain ⟨bound, x, member, there⟩ := within n length
    have further := moved.further (d := ⟨d.offset + n, d.rest.drop n⟩)
      ⟨d.rest.take n, by simp, by simp [bound]⟩
    have end_bound := further.offset_add_length
    simp only at end_bound
    refine Or.inr ⟨_, _, _, _, rfl, rfl, ?_, x, member, stands_of_at there ?_⟩
    · have leaf := echo_leaf (s := s) (k := k.kind) (x := ⟨d.offset, d.offset + n⟩) (by simp; omega)
      rwa [Span.move, show d.offset + n + s.before.length = d.offset + s.before.length + n by omega]
        at leaf
    · rw [List.drop_append_of_le_length bound,
        show d.offset + s.before.length + n = d.offset + n + s.before.length by omega]
      exact further

theorem read_token_inside {k : Token} (leads : k.leads l = some outs) {d d' : Cursor}
    {comments comments' : List Tree} (gap : skipGap c = (comments, d))
    (gap' : skipGap c' = (comments', d')) (echo : s.Echo comments comments') (moved : s.Moved d d')
    (stop : Stop (l ++ around) d.rest) :
    s.Agree around outs ((Form.token k).read limit call e c) ((Form.token k).read limit' call' e c') := by
  rw [Form.read, Form.read, gap, gap']
  simp only
  rcases read_here moved (k.length?_append s.behind leads stop) with
    ⟨no, no'⟩ | ⟨t, b, t', b', yes, yes', same, x, member, there⟩
  · rw [no, no']
    trivial
  · rw [yes, yes']
    exact ⟨List.rel_append echo (.cons same .nil), x, member, there⟩

theorem read_glued {k : Token} (leads : k.leadsGlued l = some outs)
    (stands : s.Stands around (l, .template) c c') :
    s.Agree around outs ((Form.glued k).read limit call e c) ((Form.glued k).read limit' call' e c') := by
  rw [Form.read, Form.read]
  rcases read_here stands.2 (k.length?_glued_append s.behind leads stands.1) with
    ⟨no, no'⟩ | ⟨t, b, t', b', yes, yes', same, x, member, there⟩
  · rw [no, no']
    trivial
  · rw [yes, yes']
    exact ⟨.cons same .nil, x, member, there⟩

theorem read_token {k : Token} {p : Place} (leads : k.leadsFrom l p = some outs)
    (stands : s.Stands around (l, p) c c') :
    s.Agree around outs ((Form.token k).read limit call e c) ((Form.token k).read limit' call' e c') := by
  have refused {last : Bool} (h : k.refused last = true) (quiet : Quiet last c ∧ Quiet last c') :
      s.Agree around outs ((Form.token k).read limit call e c)
        ((Form.token k).read limit' call' e c') := by
    rw [read_token_quiet h quiet.1, read_token_quiet h quiet.2]
    trivial
  cases p with
  | start =>
    rw [Token.leadsFrom] at leads
    split at leads
    · exact refused ‹_› (quiet_of_start stands)
    · obtain ⟨d', gap, gap', there, stop⟩ := skipGap_start stands
      exact read_token_inside leads gap gap' .nil there.2 stop
  | inside =>
    obtain ⟨comments, comments', d, d', gap, gap', echo, moved, stop⟩ := stands.2.skipGap stands.1
    exact read_token_inside leads gap gap' echo moved stop
  | template => cases leads
  | border =>
    rw [Token.leadsFrom] at leads
    split at leads
    · exact refused ‹_› (quiet_of_border stands)
    · cases leads
  | beyond last =>
    rw [Token.leadsFrom] at leads
    split at leads
    · exact refused ‹_› stands
    · cases leads

end

theorem Agree.cases (h : s.Agree around outs o o') :
    o = .tooDeep ∨ (o = .misfit ∧ o' = .misfit) ∨
      ∃ nodes d nodes' d', o = .fits nodes d ∧ o' = .fits nodes' d' ∧ s.Echo nodes nodes' ∧
        ∃ x ∈ outs, s.Stands around x d d' := by
  cases o with
  | tooDeep => exact Or.inl rfl
  | misfit =>
    cases o' with
    | misfit => exact Or.inr (Or.inl ⟨rfl, rfl⟩)
    | fits nodes d => exact h.elim
    | tooDeep => exact h.elim
  | fits nodes d =>
    cases o' with
    | fits nodes' d' => exact Or.inr (Or.inr ⟨nodes, d, nodes', d', rfl, rfl, h⟩)
    | misfit => exact h.elim
    | tooDeep => exact h.elim

theorem Agree.misfit (h : s.Agree around [] o o') : o = .tooDeep ∨ o = .misfit ∧ o' = .misfit := by
  rcases h.cases with deep | no | ⟨_, _, _, _, _, _, _, x, member, _⟩
  · exact Or.inl deep
  · exact Or.inr no
  · cases member

theorem moved_of_stands {p : Place} (within : p.isWithin = true)
    (stands : s.Stands around (l, p) c c') : s.Moved c c' := by
  cases p with
  | inside => exact stands.2
  | template => exact stands.2
  | border => exact stands.2
  | start => cases within
  | beyond last => cases within

theorem repeatUpTo_agree {n n' : Nat} (le : n ≤ n') {step step' : Cursor → Outcome}
    {read read' : List Tree} (echo : s.Echo read read') {x : List Opening × Place}
    (within : ∀ y ∈ outs, y.2.isWithin = true)
    (rounds : ∀ y ∈ outs, ∀ c c', s.Stands around y c c' → s.Agree around outs (step c) (step' c'))
    (member : x ∈ outs) (stands : s.Stands around x c c') :
    s.Agree around outs (repeatUpTo n step read c) (repeatUpTo n' step' read' c') := by
  induction n generalizing n' read read' c c' x with
  | zero => trivial
  | succ n ih =>
    obtain ⟨m, rfl⟩ : ∃ m, n' = m + 1 := ⟨n' - 1, by omega⟩
    have round := rounds x member c c' stands
    have done : s.Agree around outs (.fits read.reverse c) (.fits read'.reverse c') :=
      ⟨List.rel_reverse echo, x, member, stands⟩
    rw [repeatUpTo, repeatUpTo]
    cases first : step c with
    | tooDeep => trivial
    | misfit =>
      rw [first] at round
      cases first' : step' c' with
      | misfit => exact done
      | fits nodes' d' => exact (first' ▸ round).elim
      | tooDeep => exact (first' ▸ round).elim
    | fits nodes d =>
      rw [first] at round
      cases first' : step' c' with
      | misfit => exact (first' ▸ round).elim
      | tooDeep => exact (first' ▸ round).elim
      | fits nodes' d' =>
        rw [first'] at round
        obtain ⟨new, y, inside, stands'⟩ := round
        have here := moved_of_stands (within x member) stands
        have there := moved_of_stands (within y inside) stands'
        have same : (d'.offset == c'.offset) = (d.offset == c.offset) := by
          rw [here.moved, there.moved]
          simp
        simp only [same]
        split
        · exact done
        · exact ih (by omega) (List.rel_append (List.rel_reverse new) echo) inside stands'

theorem endsAt_eq {p : Place} (either : p = .inside ∨ p = .border)
    (stands : s.Stands around (l, p) c c') (e : Ending) : e.endsAt c' = e.endsAt c := by
  have moved : s.Moved c c' := by
    rcases either with rfl | rfl
    · exact stands.2
    · exact stands.2
  unfold Ending.endsAt
  rw [moved.moved]
  congr 1
  rcases either with rfl | rfl
  · exact mayEnd_append s.follows stands.1
  · have rest : c.rest = ['\n'] := stands.1.2
    rw [rest]
    rcases s.follows with none_left | ⟨_, t, export_next⟩
    · rw [none_left, List.append_nil]
    · rw [export_next]
      rfl

theorem of_refusal {found : Option Leads} {stays : Leads} (h : refusal found stays = some outs) :
    found = some [] ∧ outs = stays := by
  unfold refusal at h
  split at h
  · exact ⟨‹_›, (Option.some.inj h).symm⟩
  · cases h

theorem of_staying {found : Option Leads} (h : staying found = some outs) :
    found = some outs ∧ ∀ x ∈ outs, x.2.isWithin = true := by
  obtain ⟨xs, rfl, kept⟩ := Option.bind_eq_some_iff.1 h
  split at kept
  · rename_i all
    obtain rfl := Option.some.inj kept
    exact ⟨rfl, fun x member => List.all_eq_true.1 all x member⟩
  · cases kept

theorem repeatUpTo_misfit {n n' : Nat} (le : n ≤ n') {step step' : Cursor → Outcome}
    {x : List Opening × Place} (round : s.Agree around [] (step c) (step' c')) (stands : s.Stands around x c c') :
    s.Agree around [x] (repeatUpTo n step [] c) (repeatUpTo n' step' [] c') := by
  cases n with
  | zero => trivial
  | succ n =>
    obtain ⟨m, rfl⟩ : ∃ m, n' = m + 1 := ⟨n' - 1, by omega⟩
    rw [repeatUpTo, repeatUpTo]
    rcases round.misfit with deep | ⟨no, no'⟩
    · rw [deep]
      trivial
    · rw [no, no']
      exact ⟨.nil, x, List.mem_singleton_self _, stands⟩

variable {ρ : Type} {places : ρ → Place → Option (List Place)} {limit limit' : Nat}
  {call call' : ρ → Ending → Cursor → Outcome}

theorem read_node_inside {k : Kind} {f : Form ρ} {e : Ending} {d d' : Cursor}
    {comments comments' : List Tree} (gap : skipGap c = (comments, d))
    (gap' : skipGap c' = (comments', d')) (echo : s.Echo comments comments') (moved : s.Moved d d')
    (within : ∀ x ∈ outs, x.2.isWithin = true)
    (agree : s.Agree around outs (f.read limit call e d) (f.read limit' call' e d')) :
    s.Agree around outs ((Form.node k f).read limit call e c)
      ((Form.node k f).read limit' call' e c') := by
  rw [Form.read, Form.read, gap, gap']
  simp only
  rcases agree.cases with deep | ⟨no, no'⟩ | ⟨nodes, b, nodes', b', yes, yes', inner, x, member, there⟩
  · rw [deep]
    trivial
  · rw [no, no']
    trivial
  · rw [yes, yes']
    have there' := moved_of_stands (within x member) there
    have bound := there'.offset_add_length
    have node : Echoes s.text s.whole s.before.length (.node k none ⟨d.offset, b.offset⟩ nodes)
        (.node k none ⟨d'.offset, b'.offset⟩ nodes') := by
      rw [moved.moved, there'.moved]
      exact .node (slice_move (by simp only; omega)) inner
    exact ⟨List.rel_append echo (.cons node .nil), x, member, there⟩

theorem read_node_quiet {k : Kind} {f : Form ρ} {e : Ending} {last : Bool}
    (quiet : Quiet last c ∧ Quiet last c')
    (agree : ∀ d d', s.Stands around (l, .beyond last) d d' →
      s.Agree around [] (f.read limit call e d) (f.read limit' call' e d')) :
    s.Agree around [] ((Form.node k f).read limit call e c)
      ((Form.node k f).read limit' call' e c') := by
  obtain ⟨⟨d, gap, beyond⟩, d', gap', beyond'⟩ := quiet
  rw [Form.read, Form.read, gap, gap']
  simp only
  rcases (agree d d' ⟨quiet_of_beyond beyond, quiet_of_beyond beyond'⟩).misfit with deep | ⟨no, no'⟩
  · rw [deep]
    trivial
  · rw [no, no']
    trivial

theorem read_onward {f : Form ρ} {e : Ending} {p : Place} (either : p = .inside ∨ p = .border)
    (stands : s.Stands around (l, p) c c')
    (agree : s.Agree around outs (f.read limit call e c) (f.read limit' call' e c')) :
    s.Agree around outs ((Form.onward f).read limit call e c)
      ((Form.onward f).read limit' call' e c') := by
  rw [Form.read, Form.read, endsAt_eq either stands]
  split
  · trivial
  · exact agree

theorem read_ended {e e' : Ending} {p : Place} (either : p = .inside ∨ p = .border)
    (stands : s.Stands around (l, p) c c') :
    s.Agree around [(l, p)] ((Form.ended e').read limit call e c)
      ((Form.ended e').read limit' call' e c') := by
  rw [Form.read, Form.read, endsAt_eq either stands]
  split
  · exact ⟨.nil, _, List.mem_singleton_self _, stands⟩
  · trivial

section Forms

variable {f g : Form ρ} {e : Ending} {p : Place} {a : Leads}

theorem read_seq (first : s.Agree around a (f.read limit call e c) (f.read limit' call' e c'))
    (second : ∀ x ∈ a, ∀ d d', s.Stands around x d d' →
      s.Agree around outs (g.read limit call e d) (g.read limit' call' e d')) :
    s.Agree around outs ((Form.seq f g).read limit call e c)
      ((Form.seq f g).read limit' call' e c') := by
  rw [Form.read, Form.read]
  rcases first.cases with deep | ⟨no, no'⟩ | ⟨nodes, d, nodes', d', yes, yes', echo, x, member, there⟩
  · rw [deep]
    trivial
  · rw [no, no']
    trivial
  · rw [yes, yes']
    simp only
    rcases (second x member d d' there).cases with deep | ⟨no, no'⟩ |
      ⟨more, d, more', d', yes, yes', echo', x, member, there⟩
    · rw [deep]
      trivial
    · rw [no, no']
      trivial
    · rw [yes, yes']
      exact ⟨List.rel_append echo echo', x, member, there⟩

theorem read_alt {b : Leads} (first : s.Agree around a (f.read limit call e c) (f.read limit' call' e c'))
    (second : s.Agree around b (g.read limit call e c) (g.read limit' call' e c')) :
    s.Agree around (a ∪ b) ((Form.alt f g).read limit call e c)
      ((Form.alt f g).read limit' call' e c') := by
  rw [Form.read, Form.read]
  rcases first.cases with deep | ⟨no, no'⟩ | ⟨nodes, d, nodes', d', yes, yes', echo, x, member, there⟩
  · rw [deep]
    trivial
  · rw [no, no']
    exact second.mono fun x member => List.mem_union_iff.2 (Or.inr member)
  · rw [yes, yes']
    exact ⟨echo, x, List.mem_union_iff.2 (Or.inl member), there⟩

theorem read_absent {x : List Opening × Place} (stands : s.Stands around x c c')
    (inner : s.Agree around a (f.read limit call e c) (f.read limit' call' e c')) :
    s.Agree around [x] ((Form.absent f).read limit call e c)
      ((Form.absent f).read limit' call' e c') := by
  rw [Form.read, Form.read]
  rcases inner.cases with deep | ⟨no, no'⟩ | ⟨nodes, d, nodes', d', yes, yes', _⟩
  · rw [deep]
    trivial
  · rw [no, no']
    exact ⟨.nil, x, List.mem_singleton_self _, stands⟩
  · rw [yes, yes']
    trivial

theorem read_field {x : Field}
    (inner : s.Agree around outs (f.read limit call e c) (f.read limit' call' e c')) :
    s.Agree around outs ((Form.field x f).read limit call e c)
      ((Form.field x f).read limit' call' e c') := by
  rw [Form.read, Form.read]
  rcases inner.cases with deep | ⟨no, no'⟩ | ⟨nodes, d, nodes', d', yes, yes', echo, there⟩
  · rw [deep]
    trivial
  · rw [no, no']
    trivial
  · rw [yes, yes']
    exact ⟨echoes_markLast x echo, there⟩

theorem read_many_again (le : limit ≤ limit') (within : p.isWithin = true) (sub : a ⊆ [(l, p)])
    (round : ∀ d d', s.Stands around (l, p) d d' →
      s.Agree around a (f.read limit call e d) (f.read limit' call' e d'))
    (stands : s.Stands around (l, p) c c') :
    s.Agree around [(l, p)] ((Form.many f).read limit call e c)
      ((Form.many f).read limit' call' e c') := by
  rw [Form.read, Form.read]
  refine repeatUpTo_agree le .nil (by simpa using within) ?_ (List.mem_singleton_self _) stands
  intro y member d d' there
  obtain rfl := List.mem_singleton.1 member
  exact (round d d' there).mono fun x inside => sub inside

theorem read_many_leaving (le : limit ≤ limit') (sub : a ⊆ [(l, .inside), (l, .border)])
    (round : ∀ d d', s.Stands around (l, .inside) d d' →
      s.Agree around a (f.read limit call e d) (f.read limit' call' e d'))
    (last : ∀ d d', s.Stands around (l, .border) d d' →
      s.Agree around [] (f.read limit call e d) (f.read limit' call' e d'))
    (stands : s.Stands around (l, .inside) c c') :
    s.Agree around [(l, .inside), (l, .border)] ((Form.many f).read limit call e c)
      ((Form.many f).read limit' call' e c') := by
  rw [Form.read, Form.read]
  refine repeatUpTo_agree le .nil (by simp [Place.isWithin]) ?_ (x := (l, .inside)) (by simp) stands
  intro y member d d' there
  simp only [List.mem_cons, List.not_mem_nil, or_false] at member
  rcases member with rfl | rfl
  · exact (round d d' there).mono fun x inside => sub inside
  · exact (last d d' there).mono fun x inside => by cases inside

theorem read_many (le : limit ≤ limit') (leads : passage places (.many f) l p = some outs)
    (stands : s.Stands around (l, p) c c')
    (rounds : ∀ q a d d', passage places f l q = some a → s.Stands around (l, q) d d' →
      s.Agree around a (f.read limit call e d) (f.read limit' call' e d')) :
    s.Agree around outs ((Form.many f).read limit call e c)
      ((Form.many f).read limit' call' e c') := by
  have refused (none_more : refusal (passage places f l p) [(l, p)] = some outs) :
      s.Agree around outs ((Form.many f).read limit call e c)
        ((Form.many f).read limit' call' e c') := by
    obtain ⟨none_read, rfl⟩ := of_refusal none_more
    rw [Form.read, Form.read]
    exact repeatUpTo_misfit le (rounds p [] c c' none_read stands) stands
  cases p with
  | inside =>
    obtain ⟨a, inner, leads⟩ := Option.bind_eq_some_iff.1 leads
    have round := fun d d' => rounds .inside a d d' inner
    split at leads
    · rename_i sub
      obtain rfl := Option.some.inj leads
      exact read_many_again le rfl sub round stands
    · split at leads
      · rename_i sub
        obtain ⟨none_read, rfl⟩ := of_refusal leads
        exact read_many_leaving le sub round (fun d d' => rounds .border [] d d' none_read) stands
      · cases leads
  | template =>
    obtain ⟨a, inner, leads⟩ := Option.bind_eq_some_iff.1 leads
    split at leads
    · rename_i sub
      obtain rfl := Option.some.inj leads
      exact read_many_again le rfl sub (fun d d' => rounds .template a d d' inner) stands
    · cases leads
  | start => exact refused leads
  | border => exact refused leads
  | beyond last => exact refused leads

theorem read_node {k : Kind} (leads : passage places (.node k f) l p = some outs)
    (stands : s.Stands around (l, p) c c')
    (inner : ∀ q a d d', passage places f l q = some a → s.Stands around (l, q) d d' →
      s.Agree around a (f.read limit call e d) (f.read limit' call' e d')) :
    s.Agree around outs ((Form.node k f).read limit call e c)
      ((Form.node k f).read limit' call' e c') := by
  cases p with
  | start =>
    rw [passage] at leads
    split at leads
    · rename_i none_read
      obtain rfl := Option.some.inj leads
      exact read_node_quiet (quiet_of_start stands) fun d d' => inner _ [] d d' none_read
    · obtain ⟨staying, within⟩ := of_staying leads
      obtain ⟨d', gap, gap', there, stop⟩ := skipGap_start stands
      exact read_node_inside gap gap' .nil there.2 within (inner _ outs _ _ staying there)
  | inside =>
    obtain ⟨staying, within⟩ := of_staying leads
    obtain ⟨comments, comments', d, d', gap, gap', echo, moved, stop⟩ := stands.2.skipGap stands.1
    exact read_node_inside gap gap' echo moved within (inner _ outs _ _ staying ⟨stop.held, moved⟩)
  | template => cases leads
  | border =>
    obtain ⟨none_read, rfl⟩ := of_refusal leads
    exact read_node_quiet (quiet_of_border stands) fun d d' => inner _ [] d d' none_read
  | beyond last =>
    obtain ⟨none_read, rfl⟩ := of_refusal leads
    exact read_node_quiet stands fun d d' => inner _ [] d d' none_read

end Forms

/-- What is known of the places where a form leads holds, if it holds for the rules. -/
theorem read_agree (le : limit ≤ limit')
    (calls : ∀ r e around l p outs c c', ruleLeads places r l p = some outs →
      s.Stands around (l, p) c c' → s.Agree around outs (call r e c) (call' r e c'))
    (f : Form ρ) {e : Ending} {p : Place} (leads : passage places f l p = some outs)
    (stands : s.Stands around (l, p) c c') :
    s.Agree around outs (f.read limit call e c) (f.read limit' call' e c') := by
  induction f generalizing e p l outs c c' with
  | nothing =>
    obtain rfl := Option.some.inj leads
    exact ⟨.nil, _, List.mem_singleton_self _, stands⟩
  | token k => exact read_token leads stands
  | glued k =>
    cases p with
    | template => exact read_glued leads stands
    | inside => cases leads
    | start => cases leads
    | border => cases leads
    | beyond last => cases leads
  | seq f g ihf ihg =>
    obtain ⟨a, first, second⟩ := Option.bind_eq_some_iff.1 leads
    refine read_seq (ihf first stands) fun x member d d' there => ?_
    obtain ⟨b, step, sub⟩ := gather_mem second member
    exact (ihg step there).mono sub
  | alt f g ihf ihg =>
    obtain ⟨a, first, leads⟩ := Option.bind_eq_some_iff.1 leads
    obtain ⟨b, second, rfl⟩ := Option.map_eq_some_iff.1 leads
    exact read_alt (ihf first stands) (ihg second stands)
  | many f ih => exact read_many le leads stands fun q a d d' inner there => ih inner there
  | absent f ih =>
    obtain ⟨a, inner, rfl⟩ := Option.map_eq_some_iff.1 leads
    exact read_absent stands (ih inner stands)
  | rule r => exact calls _ _ _ _ _ _ _ _ leads stands
  | node k f ih => exact read_node leads stands fun q a d d' inner there => ih inner there
  | field x f ih => exact read_field (ih leads stands)
  | within e' f ih => exact ih leads stands
  | onward f ih =>
    cases p with
    | inside => exact read_onward (Or.inl rfl) stands (ih leads stands)
    | border => exact read_onward (Or.inr rfl) stands (ih leads stands)
    | start => cases leads
    | template => cases leads
    | beyond last => cases leads
  | ended e' =>
    cases p with
    | inside =>
      obtain rfl := Option.some.inj leads
      exact read_ended (Or.inl rfl) stands
    | border =>
      obtain rfl := Option.some.inj leads
      exact read_ended (Or.inr rfl) stands
    | start => cases leads
    | template => cases leads
    | beyond last => cases leads
  | finish => cases leads

end Setting

end SourceSpecs.Syntax
