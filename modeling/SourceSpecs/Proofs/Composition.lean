import Mathlib.Data.List.Forall2
import SourceSpecs.Proofs.Lookahead
/-!
Readings put together: how a form is read whose parts are known to be read, or known not to fit.
-/
namespace SourceSpecs.Syntax

inductive Runs (f : Form Rule) (e : Ending) : Cursor → List Tree → Cursor → Prop where
  | done (c : Cursor) : Runs f e c [] c
  | round {c d b : Cursor} {nodes more : List Tree} (reads : f.reads? e c = some (nodes, d))
      (rest : Runs f e d more b) : Runs f e c (nodes ++ more) b

theorem drop_behind {S w t : List Char} {o : Nat} (on : S.drop o = w ++ t) :
    S.drop (o + w.length) = t := by
  rw [← List.drop_drop, on, List.drop_left]

variable {f g : Form Rule} {r : Rule} {e : Ending} {c d b : Cursor} {o : Nat} {u t : List Char}
  {nodes more : List Tree} {x : List Tree × Cursor}

theorem Runs.append (h : Runs f e c nodes d) (k : Runs f e d more b) : Runs f e c (nodes ++ more) b := by
  induction h with
  | done c => exact k
  | round reads rest ih =>
    rw [List.append_assoc]
    exact .round reads (ih k)

theorem Runs.single (h : f.reads? e c = some (nodes, d)) : Runs f e c nodes d := by
  rw [← List.append_nil nodes]
  exact .round h (.done d)

theorem progress_of_reads? (eats : f.eats Rule.eats = true) (h : f.reads? e c = some (nodes, d)) :
    c.offset < d.offset := by
  have read := read_eq (f := f) (e := e) (Nat.le_refl c.rest.length)
  rw [h] at read
  exact (Form.read_moves (fun r e c nodes d inner => readRule_moves inner) f read).progress eats

theorem reads_many (eats : f.eats Rule.eats = true) (runs : Runs f e c nodes d)
    (stops : f.reads? e d = none) : (Form.many f).reads? e c = some (nodes, d) := by
  induction runs with
  | done c => rw [reads?_many, stops]
  | round reads rest ih =>
    have := progress_of_reads? eats reads
    rw [reads?_many, reads]
    simp only
    rw [if_neg (by omega), ih stops]
    rfl

theorem reads_seq (first : f.reads? e c = some (nodes, d)) (second : g.reads? e d = some (more, b)) :
    (Form.seq f g).reads? e c = some (nodes ++ more, b) := by
  rw [reads?_seq, first, Option.bind_some, second]
  rfl

theorem exists_of_reads_seq (h : (Form.seq f g).reads? e c = some (nodes, b)) :
    ∃ front d behind, f.reads? e c = some (front, d) ∧ g.reads? e d = some (behind, b) := by
  rw [reads?_seq] at h
  obtain ⟨⟨front, d⟩, first, h⟩ := Option.bind_eq_some_iff.1 h
  obtain ⟨⟨behind, d'⟩, second, same⟩ := Option.map_eq_some_iff.1 h
  obtain rfl : d' = b := congrArg Prod.snd same
  exact ⟨front, d, behind, first, second⟩

theorem reads_seq_none (first : f.reads? e c = some (nodes, d)) (second : g.reads? e d = none) :
    (Form.seq f g).reads? e c = none := by
  rw [reads?_seq, first, Option.bind_some, second]
  rfl

theorem reads_seq_left_none (misfit : f.reads? e c = none) : (Form.seq f g).reads? e c = none := by
  rw [reads?_seq, misfit, Option.bind_none]

theorem reads_behind (idle : f.reads? e c = some ([], c)) : (Form.seq f g).reads? e c = g.reads? e c := by
  rw [reads?_seq, idle, Option.bind_some]
  cases g.reads? e c <;> rfl

theorem reads_left (h : f.reads? e c = some x) : (Form.alt f g).reads? e c = some x := by
  rw [reads?_alt, h, Option.some_or]

theorem reads_right (misfit : f.reads? e c = none) : (Form.alt f g).reads? e c = g.reads? e c := by
  rw [reads?_alt, misfit, Option.none_or]

theorem reads_opt (h : f.reads? e c = some x) : (Form.opt f).reads? e c = some x := reads_left h

theorem reads_opt_none (misfit : f.reads? e c = none) : (Form.opt f).reads? e c = some ([], c) :=
  reads_right misfit

theorem reads_choice {fs : List (Form Rule)} {i : Nat} (here : fs[i]? = some f)
    (misfits : ∀ g ∈ fs.take i, g.reads? e c = none) (h : f.reads? e c = some x) :
    (Form.choice fs).reads? e c = some x := by
  induction fs generalizing i with
  | nil => cases here
  | cons g fs ih =>
    cases i with
    | zero =>
      obtain rfl := Option.some.inj here
      cases fs with
      | nil => exact h
      | cons g' fs => exact reads_left h
    | succ i =>
      have first : g.reads? e c = none := misfits g (by simp)
      cases fs with
      | nil => cases here
      | cons g' fs =>
        rw [Form.choice, reads_right first]
        · apply ih here
          intro k member
          exact misfits k (by simp [member])
        · simp

theorem reads_choice_before {fs : List (Form Rule)} {i : Nat} {ls : List Lead} (here : fs[i]? = some f)
    (meets : Meets ls c) (misfits : (fs.take i).all (·.misfits ls) = true)
    (h : f.reads? e c = some x) : (Form.choice fs).reads? e c = some x := by
  apply reads_choice here _ h
  intro g member
  exact reads?_of_misfits meets (List.all_eq_true.1 misfits g member)

theorem reads_token {k : Token} (before : Before c o (u ++ t))
    (length : k.length? (u ++ t) = some u.length) :
    (Form.token k).reads? e c =
      some ([.leaf k.kind ⟨o, o + u.length⟩], ⟨o + u.length, t⟩) := by
  rw [reads?_token, before.skipGap]
  simp only [Token.read, length, Option.map_some, List.drop_left, List.nil_append]

theorem reads_token_none {k : Token} (before : Before c o u) (length : k.length? u = none) :
    (Form.token k).reads? e c = none := by
  rw [reads?_token, before.skipGap]
  simp only [Token.read, length, Option.map_none]

theorem exists_of_reads_token {k : Token} (h : (Form.token k).reads? e c = some (nodes, d)) :
    ∃ n, k.length? (skipGap c).2.rest = some n ∧ d.rest = (skipGap c).2.rest.drop n := by
  rw [reads?_token] at h
  obtain ⟨⟨t, d'⟩, token, same⟩ := Option.map_eq_some_iff.1 h
  obtain rfl : d' = d := congrArg Prod.snd same
  obtain ⟨n, length, same⟩ := Option.map_eq_some_iff.1 token
  exact ⟨n, length, (congrArg (·.2.rest) same).symm⟩

theorem reads_mark {stops : List Char} (before : Before c o (u ++ t))
    (follows : ∀ x ∈ t.head?, x ∉ stops) :
    (Form.token (.symbol u stops)).reads? e c =
      some ([.leaf (.symbol u) ⟨o, o + u.length⟩], ⟨o + u.length, t⟩) := by
  apply reads_token before
  rw [Token.length?, after?_append_self]
  cases t with
  | nil => rfl
  | cons x t =>
    simp only
    rw [if_neg]
    rw [List.contains_iff_mem]
    exact follows x rfl

theorem reads_word {k : Kind} (before : Before c o (u ++ t)) (whole : IsWhole u) (ends : EndsWord t) :
    (Form.token (.word k u)).reads? e c = some ([.leaf k ⟨o, o + u.length⟩], ⟨o + u.length, t⟩) := by
  apply reads_token before
  rw [wordLength_whole k (nameLength?_whole whole ends), if_pos rfl]

theorem reads_whole {k : Kind} {except : List (List Char)} (before : Before c o (u ++ t)) (whole : IsWhole u)
    (ends : EndsWord t) (allowed : u ∉ except) :
    (Form.token (.name k except)).reads? e c = some ([.leaf k ⟨o, o + u.length⟩], ⟨o + u.length, t⟩) := by
  apply reads_token before
  rw [Token.length?, nameLength?_whole whole ends]
  simp only
  rw [List.take_left, if_neg]
  intro excepted
  exact allowed (List.contains_iff_mem.1 excepted)

theorem reads_name {k : Kind} {except : List (List Char)} (n : Name)
    (before : Before c o (n.chars ++ t)) (ends : EndsWord t)
    (known : except.all keywords.contains = true) :
    (Form.token (.name k except)).reads? e c =
      some ([.leaf k ⟨o, o + n.chars.length⟩], ⟨o + n.chars.length, t⟩) := by
  apply reads_whole before n.whole ends
  intro excepted
  exact n.free (List.contains_iff_mem.1 (List.all_eq_true.1 known _ excepted))

theorem reads_keys {ws : List String} {w : String} (member : w ∈ ws)
    (before : Before c o (w.toList ++ t)) (whole : IsWhole w.toList) (ends : EndsWord t) :
    (Grammar.keys ws).reads? e c = some ([.leaf (.keyword w.toList) ⟨o, o + w.toList.length⟩],
      ⟨o + w.toList.length, t⟩) := by
  have here : (Grammar.key w).reads? e c = _ := reads_word before whole ends
  induction ws with
  | nil => cases member
  | cons v ws ih =>
    have first : v ≠ w → (Grammar.key v).reads? e c = none := by
      intro apart
      apply reads_token_none before
      rw [wordLength_whole _ (nameLength?_whole whole ends), if_neg]
      intro same
      exact apart (String.toList_inj.1 same)
    by_cases same : v = w
    · subst same
      cases ws with
      | nil => exact here
      | cons v' ws => exact reads_left here
    · have further := ih ((List.mem_cons.1 member).resolve_left (Ne.symm same))
      cases ws with
      | nil => cases (List.mem_cons.1 member).resolve_left (Ne.symm same)
      | cons v' ws =>
        exact (reads_right (first same)).trans further

theorem reads_number (n : NumberLiteral) (before : Before c o (n.chars ++ t)) (ends : EndsWord t)
    (no_point : t.head? ≠ some '.') :
    (Form.token .number).reads? e c =
      some ([.leaf .number ⟨o, o + n.chars.length⟩], ⟨o + n.chars.length, t⟩) :=
  reads_token before (numberLength?_append n.whole ends no_point)

theorem reads_string (s : StringLiteral) (before : Before c o (s.chars ++ t)) :
    (Form.token .string).reads? e c =
      some ([.leaf .string ⟨o, o + s.chars.length⟩], ⟨o + s.chars.length, t⟩) :=
  reads_token before (stringLength?_append s.whole)

theorem reads_node {k : Kind} {p : Nat} (before : Before c o u)
    (h : f.reads? e ⟨o, u⟩ = some (nodes, ⟨p, t⟩)) :
    (Form.node k f).reads? e c = some ([.node k none ⟨o, p⟩ nodes], ⟨p, t⟩) := by
  rw [reads?_node, before.skipGap]
  simp only
  rw [h]
  rfl

theorem reads_node_behind {k : Kind} (gap : skipGap c = skipGap d) :
    (Form.node k f).reads? e c = (Form.node k f).reads? e d := by
  rw [reads?_node, reads?_node, gap]

theorem reads_node_none {k : Kind} (before : Before c o u) (h : f.reads? e ⟨o, u⟩ = none) :
    (Form.node k f).reads? e c = none := by
  rw [reads?_node, before.skipGap]
  simp only
  rw [h]
  rfl

theorem reads_field {y : Field} (h : f.reads? e c = some (nodes, d)) :
    (Form.field y f).reads? e c = some (markLast y nodes, d) := by
  rw [reads?_field, h]
  rfl

theorem reads_rule (h : r.form.reads? e c = some x) : (Form.rule r).reads? e c = some x := by
  rwa [reads?_rule]

theorem reads_onward (goes_on : e.endsAt c = false) (h : f.reads? e c = some x) :
    (Form.onward f).reads? e c = some x := by
  rw [reads?_onward, goes_on, if_neg (by simp), h]

/-- The nodes are the given ones, with marks among them. -/
inductive Weaves : List Tree → List Tree → Prop where
  | nil : Weaves [] []
  | node (t : Tree) {nodes ts : List Tree} (h : Weaves nodes ts) : Weaves (t :: nodes) (t :: ts)
  | mark (m : List Char) (s : Span) {nodes ts : List Tree} (h : Weaves nodes ts) :
      Weaves (.leaf (.symbol m) s :: nodes) ts

theorem Weaves.append {nodes more ts us : List Tree} (h : Weaves nodes ts) (k : Weaves more us) :
    Weaves (nodes ++ more) (ts ++ us) := by
  induction h with
  | nil => exact k
  | node t h ih => exact .node t ih
  | mark m s h ih => exact .mark m s ih

theorem Weaves.flatMap {α : Type} {g : Tree → List α} {nodes ts : List Tree}
    (marks : ∀ m s, g (.leaf (.symbol m) s) = []) (h : Weaves nodes ts) : nodes.flatMap g = ts.flatMap g := by
  induction h with
  | nil => rfl
  | node t h ih => rw [List.flatMap_cons, List.flatMap_cons, ih]
  | mark m s h ih => rw [List.flatMap_cons, marks, ih, List.nil_append]

section Separated

variable {α : Type} {S : List Char} {mark : Form Rule} {ends : List Char → Prop}
  {Q : α → Tree → Prop} {chars : α → List Char} {x : Char} {xs : List α} {v : List Char} {p : Nat}

/-- A text is read as one node, where what follows ends it. -/
def ReadsNode (S : List Char) (f : Form Rule) (e : Ending) (ends : List Char → Prop) (Q : Tree → Prop)
    (w : List Char) : Prop :=
  ∀ c o p v, p = o + w.length → S.drop o = w ++ v → Before c o (w ++ v) → ends v →
    ∃ t, f.reads? e c = some ([t], ⟨p, v⟩) ∧ Q t

theorem runs_separated (items : ∀ a ∈ xs, ReadsNode S f e ends (Q a) (chars a))
    (shown : ∀ a ∈ xs, ∀ o v, Before ⟨o, chars a ++ v⟩ o (chars a ++ v))
    (marked : ∀ o v, mark.reads? e ⟨o, x :: v⟩ = some ([.leaf (.symbol [x]) ⟨o, o + 1⟩], ⟨o + 1, v⟩))
    (between : ∀ v, ends (x :: v)) (stop : p = o + (xs.flatMap ([x, ' '] ++ chars ·)).length)
    (on : S.drop o = xs.flatMap ([x, ' '] ++ chars ·) ++ v) (ended : ends v) :
    ∃ nodes ts, Runs (.seq mark f) e ⟨o, xs.flatMap ([x, ' '] ++ chars ·) ++ v⟩ nodes ⟨p, v⟩ ∧
      List.Forall₂ Q xs ts ∧ Weaves nodes ts := by
  induction xs generalizing o with
  | nil =>
    obtain rfl := stop
    exact ⟨[], [], .done _, .nil, .nil⟩
  | cons a xs ih =>
    set rest := xs.flatMap ([x, ' '] ++ chars ·) with rest_eq
    have text : (a :: xs).flatMap ([x, ' '] ++ chars ·) ++ v = x :: ' ' :: (chars a ++ (rest ++ v)) := by
      simp [rest_eq]
    rw [text] at on ⊢
    have on_item : S.drop (o + 2) = chars a ++ (rest ++ v) := drop_behind (w := [x, ' ']) on
    have on_rest : S.drop (o + 2 + (chars a).length) = rest ++ v := drop_behind on_item
    have ended_item : ends (rest ++ v) := by
      cases xs with
      | nil => exact ended
      | cons b xs => exact between _
    obtain ⟨t, read, good⟩ := items a List.mem_cons_self ⟨o + 1, ' ' :: (chars a ++ (rest ++ v))⟩ (o + 2)
      _ _ rfl on_item (shown a List.mem_cons_self _ _).space ended_item
    have stop' : p = o + 2 + (chars a).length + rest.length := by
      rw [stop, List.flatMap_cons, ← rest_eq]
      simp only [List.length_append, List.length_cons, List.length_nil]
      omega
    obtain ⟨nodes, ts, runs, goods, weaves⟩ :=
      ih (fun b member => items b (List.mem_cons_of_mem a member))
        (fun b member => shown b (List.mem_cons_of_mem a member)) stop' on_rest
    exact ⟨_, t :: ts, .round (reads_seq (marked _ _) read) runs, .cons good goods,
      .mark [x] _ (.node t weaves)⟩

theorem reads_separated {a : α} (items : ∀ b ∈ a :: xs, ReadsNode S f e ends (Q b) (chars b))
    (shown : ∀ b ∈ a :: xs, ∀ o v, Before ⟨o, chars b ++ v⟩ o (chars b ++ v))
    (marked : ∀ o v, mark.reads? e ⟨o, x :: v⟩ = some ([.leaf (.symbol [x]) ⟨o, o + 1⟩], ⟨o + 1, v⟩))
    (between : ∀ v, ends (x :: v)) (eats : (Form.seq mark f).eats Rule.eats = true)
    (stop : p = o + (setApart [x, ' '] ((a :: xs).map chars)).length)
    (on : S.drop o = setApart [x, ' '] ((a :: xs).map chars) ++ v)
    (before : Before c o (setApart [x, ' '] ((a :: xs).map chars) ++ v)) (ended : ends v)
    (stops : (Form.seq mark f).reads? e ⟨p, v⟩ = none) :
    ∃ nodes ts, (Form.separated f mark).reads? e c = some (nodes, ⟨p, v⟩) ∧
      List.Forall₂ Q (a :: xs) ts ∧ Weaves nodes ts := by
  have text : setApart [x, ' '] ((a :: xs).map chars) ++ v =
      chars a ++ (xs.flatMap ([x, ' '] ++ chars ·) ++ v) := by
    rw [List.map_cons, setApart, List.flatMap_map, List.append_assoc]
  rw [text] at on before
  have ended_first : ends (xs.flatMap ([x, ' '] ++ chars ·) ++ v) := by
    cases xs with
    | nil => exact ended
    | cons b xs => exact between _
  obtain ⟨t, read, good⟩ := items a List.mem_cons_self c o _ _ rfl on before ended_first
  have stop' : p = o + (chars a).length + (xs.flatMap ([x, ' '] ++ chars ·)).length := by
    rw [stop, List.map_cons, setApart, List.flatMap_map, List.length_append]
    omega
  obtain ⟨nodes, ts, runs, goods, weaves⟩ :=
    runs_separated (fun b member => items b (List.mem_cons_of_mem a member))
      (fun b member => shown b (List.mem_cons_of_mem a member)) marked between stop' (drop_behind on) ended
  exact ⟨_, t :: ts, reads_seq read (reads_many eats runs stops), .cons good goods, .node t weaves⟩

theorem reads_enclosed {x y : Char} {w : List Char} (closes : y ∈ openMarks)
    (stop : p = o + (w.length + 2)) (before : Before c o (x :: (w ++ y :: v)))
    (inside : f.reads? .never ⟨o + 1, w ++ y :: v⟩ = some (nodes, ⟨o + 1 + w.length, y :: v⟩)) :
    ∃ l r, (Form.seq (.seq (.token (.symbol [x] [])) (.within .never f)) (.token (.symbol [y] []))).reads? e c =
      some ([.leaf (.symbol [x]) l] ++ nodes ++ [.leaf (.symbol [y]) r], ⟨p, v⟩) := by
  have here : Before ⟨o + 1 + w.length, y :: v⟩ (o + 1 + w.length) ([y] ++ v) :=
    (Lead.Shows.mark (m := [y]) ⟨y, rfl, closes⟩).before
  obtain rfl : p = o + 1 + w.length + 1 := by omega
  exact ⟨_, _, reads_seq (reads_seq (g := .within .never f) (reads_mark (u := [x]) before (by simp)) inside)
    (reads_mark here (by simp))⟩

/-- Texts set apart by commas are read up to the mark that closes them. -/
theorem reads_commaList {y : Char} {a : α}
    (items : ∀ b ∈ a :: xs, ReadsNode S f .never ends (Q b) (chars b))
    (shown : ∀ b ∈ a :: xs, ∀ o v, Before ⟨o, chars b ++ v⟩ o (chars b ++ v))
    (between : ∀ v, ends (',' :: v)) (ended : ends (y :: v)) (closes : y ∈ openMarks)
    (eats : (Form.seq Grammar.comma f).eats Rule.eats = true)
    (misfits : Grammar.comma.misfits [.mark [y]] = true)
    (stop : p = o + (setApart [',', ' '] ((a :: xs).map chars)).length)
    (on : S.drop o = setApart [',', ' '] ((a :: xs).map chars) ++ y :: v) :
    ∃ nodes ts, (Grammar.commaList f).reads? .never ⟨o, setApart [',', ' '] ((a :: xs).map chars) ++ y :: v⟩ =
        some (nodes, ⟨p, y :: v⟩) ∧ List.Forall₂ Q (a :: xs) ts ∧ Weaves nodes ts := by
  have begins : Before ⟨o, setApart [',', ' '] ((a :: xs).map chars) ++ y :: v⟩ o
      (setApart [',', ' '] ((a :: xs).map chars) ++ y :: v) := by
    rw [List.map_cons, setApart, List.append_assoc]
    exact shown a List.mem_cons_self _ _
  have marked : ∀ o v, Grammar.comma.reads? .never ⟨o, ',' :: v⟩ =
      some ([.leaf (.symbol [',']) ⟨o, o + 1⟩], ⟨o + 1, v⟩) := by
    intro o v
    exact reads_mark (.here (by decide) (by decide)) (by simp)
  have no_comma := reads?_of_misfits (e := .never) (meets_mark closes p v) misfits
  obtain ⟨nodes, ts, list, goods, weaves⟩ := reads_separated items shown marked between eats stop on begins
    ended (reads_seq_left_none no_comma)
  have whole := reads_seq list (reads_opt_none no_comma)
  rw [List.append_nil] at whole
  exact ⟨nodes, ts, whole, goods, weaves⟩

theorem reads_list {x y : Char} (items : ∀ a ∈ xs, ReadsNode S f .never ends (Q a) (chars a))
    (shown : ∀ a ∈ xs, ∀ o v, Before ⟨o, chars a ++ v⟩ o (chars a ++ v))
    (between : ∀ v, ends (',' :: v)) (ended : ∀ v, ends (y :: v)) (closes : y ∈ openMarks)
    (eats : (Form.seq Grammar.comma f).eats Rule.eats = true)
    (misfits : Grammar.comma.misfits [.mark [y]] = true)
    (idles : (Form.opt (Grammar.commaList f)).idles [.mark [y]] = true)
    (stop : p = o + ((setApart [',', ' '] (xs.map chars)).length + 2))
    (on : S.drop o = x :: (setApart [',', ' '] (xs.map chars) ++ y :: v))
    (before : Before c o (x :: (setApart [',', ' '] (xs.map chars) ++ y :: v))) :
    ∃ nodes ts l r, (Form.seq (.seq (.token (.symbol [x] [])) (.within .never (.opt (Grammar.commaList f))))
        (.token (.symbol [y] []))).reads? e c =
          some ([.leaf (.symbol [x]) l] ++ nodes ++ [.leaf (.symbol [y]) r], ⟨p, v⟩) ∧
      List.Forall₂ Q xs ts ∧ Weaves nodes ts := by
  cases xs with
  | nil =>
    have inside := reads?_of_idles (e := .never) (meets_mark closes (o + 1) v) idles
    obtain ⟨l, r, whole⟩ := reads_enclosed (e := e) (w := []) closes stop before inside
    exact ⟨[], [], l, r, whole, .nil, .nil⟩
  | cons a xs =>
    obtain ⟨nodes, ts, list, goods, weaves⟩ := reads_commaList items shown between (ended v) closes eats
      misfits rfl (drop_behind (w := [x]) on)
    obtain ⟨l, r, whole⟩ := reads_enclosed (e := e) closes stop before (reads_opt list)
    exact ⟨nodes, ts, l, r, whole, goods, weaves⟩

end Separated

end SourceSpecs.Syntax
