import SourceSpecs.Proofs.Relocation
/-!
Patterns of some of the forms. No two forms can be read at one place, so it makes no difference in
which order they are tried. An empty first alternative matches wherever no other match lies around
it, and it hides none of the matches that begin there.
-/
namespace SourceSpecs.Declaration

open Text

section Ways

/-- The reader tries its ways to read in a fixed order, and takes the first that lets what comes
    behind it succeed. -/
def Tries {β : Type} (r : {α : Type} → (β → Option α) → Option α) : Prop :=
  ∃ ways : List β, ∀ {α : Type} (k : β → Option α), r k = ways.findSome? k

variable {β γ : Type}

theorem tries_one (b : β) : Tries fun k => k b :=
  ⟨[b], fun k => by simp⟩

theorem tries_bind {r : γ → {α : Type} → (β → Option α) → Option α} (o : Option γ)
    (h : ∀ x, Tries (r x)) : Tries fun k => o.bind fun x => r x k := by
  cases o with
  | none => exact ⟨[], fun k => rfl⟩
  | some x => exact h x

theorem tries_firstAlong {r : Cursor → {α : Type} → (β → Option α) → Option α} (p : Char → Bool)
    (c : Cursor) (h : ∀ d, Tries (r d)) : Tries fun k => c.firstAlong p fun d => r d k := by
  obtain ⟨offset, rest⟩ := c
  induction rest generalizing offset with
  | nil => exact h ⟨offset, []⟩
  | cons x rest ih =>
    obtain ⟨here, eq⟩ := h ⟨offset, x :: rest⟩
    obtain ⟨later, eq'⟩ := ih (offset + 1)
    refine ⟨here ++ if p x = true then later else [], fun k => ?_⟩
    have first : r ⟨offset, x :: rest⟩ k = here.findSome? k := eq k
    have further : Cursor.firstAlong p (fun d => r d k) ⟨offset + 1, rest⟩ = later.findSome? k := eq' k
    refine (Cursor.firstAlong_cons offset x rest).trans ?_
    rw [List.findSome?_append, first, further]
    split <;> rfl

theorem tries_source (marker : String) (closing : Cursor → Option Cursor)
    (capture : Span → Span → Capture) (start : Nat) (c : Cursor) :
    Tries fun k => readSource marker closing capture (fun x d => k (x, d)) start c := by
  simp only [readSource, Option.bind_eq_bind]
  refine tries_bind _ fun d => tries_bind _ fun path => tries_firstAlong _ _ fun stop => ?_
  exact tries_bind _ fun x => tries_bind _ fun d => tries_one _

theorem tries_named (keyword opener closer : String)
    (capture : Span → Option Span → Span → Capture) (c : Cursor) :
    Tries fun k => readNamed keyword opener closer capture (fun x d => k (x, d)) c := by
  simp only [readNamed, Option.bind_eq_bind]
  refine tries_bind _ fun name => tries_bind _ fun d => tries_firstAlong _ _ fun d => ?_
  exact tries_bind _ fun d => tries_one _

theorem tries_read (f : Form) (c : Cursor) : Tries fun k => f.read (fun x d => k (x, d)) c := by
  cases f with
  | function =>
    simp only [Form.read, readFunction_eq]
    refine tries_bind _ fun d => tries_bind _ fun d => tries_bind _ fun r => ?_
    exact tries_bind _ fun d => tries_bind _ fun d => tries_bind _ fun d => tries_one _
  | interface => exact tries_named "interface" "\x7b" "\n\x7d\n" .interface c
  | typeAlias => exact tries_named "type" "=" ";\n" .typeAlias c
  | importFrom =>
    simp only [Form.read, readImport_eq]
    refine tries_bind _ fun d => tries_bind _ fun d => tries_firstAlong _ _ fun d => ?_
    exact tries_source "from" lineEnd .importFrom c.offset d
  | require =>
    simp only [Form.read, readRequire_eq]
    refine tries_bind _ fun d => tries_firstAlong _ _ fun d => ?_
    exact tries_source "require(" callEnd .require c.offset d

variable {α : Type} {f : Form} {k : Next α} {c d : Cursor} {x : Capture} {a : α}

theorem Form.read_of_at? (read : f.at? c = some (x, d)) (suits : k x d = some a) :
    f.read k c = some a := by
  obtain ⟨ways, eq⟩ := tries_read f c
  have first := (eq fun r => some r).symm.trans read
  cases ways with
  | nil => cases first
  | cons way ways =>
    obtain rfl : way = (x, d) := by simpa using first
    exact (eq fun r => k r.1 r.2).trans (by simp [suits])

theorem Form.read_eq_none (misfit : f.at? c = none) : f.read k c = none := by
  obtain ⟨ways, eq⟩ := tries_read f c
  have first := (eq fun r => some r).symm.trans misfit
  cases ways with
  | nil => exact eq fun r => k r.1 r.2
  | cons way ways => simp at first

end Ways

def oneOf? (forms : List Form) (c : Cursor) : Option (Capture × Cursor) := forms.findSome? (·.at? c)

def Match.ofReading (c : Cursor) (r : Capture × Cursor) : Match :=
  ⟨c.offset, c.rest.take (r.2.offset - c.offset), [r.1]⟩

def Match.nothing (offset : Nat) : Match := ⟨offset, [], []⟩

def Pattern.ofEach (forms : List Form) (multiline : Bool) : Pattern := ⟨forms.map ([·]), multiline⟩

def Pattern.behindEmpty (p : Pattern) : Pattern := ⟨[] :: p.alternatives, p.multiline⟩

section Forms

variable {forms forms' : List Form} {multiline here nonempty : Bool} {c : Cursor}

theorem oneOf?_eq_some_iff {r : Capture × Cursor} :
    oneOf? forms c = some r ↔ ∃ f ∈ forms, f.at? c = some r := by
  constructor
  · exact List.exists_of_findSome?_eq_some
  · intro ⟨f, member, read⟩
    have found : oneOf? forms c ≠ none := by
      intro missing
      have misfit := List.findSome?_eq_none_iff.1 missing f member
      rw [read] at misfit
      cases misfit
    obtain ⟨r', found⟩ := Option.ne_none_iff_exists'.1 found
    obtain ⟨g, _, read'⟩ := List.exists_of_findSome?_eq_some found
    obtain rfl := form_eq_of_at? read read'
    rw [found, ← read, ← read']

theorem oneOf?_congr (same : ∀ f, f ∈ forms ↔ f ∈ forms') : oneOf? forms = oneOf? forms' := by
  funext c
  refine Option.ext fun r => ?_
  simp only [oneOf?_eq_some_iff, same]

theorem reads_of_oneOf? {r : Capture × Cursor} (read : oneOf? forms c = some r) :
    (Match.ofReading c r).text ≠ [] ∧ c.Reads (Match.ofReading c r).text r.2 := by
  obtain ⟨f, _, form⟩ := oneOf?_eq_some_iff.1 read
  obtain ⟨w, reads, ends⟩ := reads_of_firstForm? (firstForm?_of_at? form)
  have size : r.2.offset - c.offset = w.length := by
    have := reads.2
    omega
  have text : (Match.ofReading c r).text = w := by
    rw [Match.ofReading, size, reads.1, List.take_left]
  rw [text]
  refine ⟨?_, reads⟩
  rintro rfl
  cases ends

theorem matchAt_ofEach : (Pattern.ofEach forms multiline).matchAt here nonempty c =
    if here then (oneOf? forms c).map (Match.ofReading c) else none := by
  have row (f : Form) : readRow multiline [f] here [] (fun captures d =>
      if nonempty && c.offset == d.offset then none
      else some (⟨c.offset, c.rest.take (d.offset - c.offset), captures⟩ : Match)) c =
      if here then (f.at? c).map (Match.ofReading c) else none := by
    simp only [readRow, List.nil_append]
    cases here with
    | false => rfl
    | true =>
      rw [if_pos rfl, if_pos rfl]
      cases read : f.at? c with
      | none => exact Form.read_eq_none read
      | some r =>
        have ahead : c.offset ≠ r.2.offset := by
          obtain ⟨w, reads, ends⟩ := reads_of_firstForm? (firstForm?_of_at? read)
          have := reads.2
          have : 0 < w.length := by
            cases w with
            | nil => cases ends
            | cons x w => exact Nat.succ_pos _
          omega
        exact Form.read_of_at? read (by simp [ahead, Match.ofReading])
  simp only [Pattern.matchAt, Pattern.ofEach, List.findSome?_map, Function.comp_def, row]
  cases here with
  | false => simp
  | true =>
    simp only [if_pos, oneOf?]
    exact List.map_findSome?.symm

theorem matchAt_behindEmpty (p : Pattern) :
    p.behindEmpty.matchAt here false c = some (Match.nothing c.offset) := by
  simp [Pattern.matchAt, Pattern.behindEmpty, readRow, Match.nothing]

theorem matchAt_behindEmpty_again (p : Pattern) :
    p.behindEmpty.matchAt here true c = p.matchAt here true c := by
  simp [Pattern.matchAt, Pattern.behindEmpty, readRow]

theorem foldl_joinForm (alternatives : List (List Form)) (headless : Form.function ∉ forms) :
    forms.foldl joinForm alternatives = alternatives ++ forms.map ([·]) := by
  induction forms generalizing alternatives with
  | nil => simp
  | cons f forms ih =>
    have opens : f.opensAlternative = true := by
      simp only [Form.opensAlternative, bne_iff_ne]
      rintro rfl
      exact headless List.mem_cons_self
    rw [List.foldl_cons, joinForm, if_pos opens,
      ih _ fun inside => headless (List.mem_cons_of_mem f inside)]
    simp

theorem ofForms?_eq (distinct : forms.Nodup)
    (first : Form.function ∈ forms → forms.head? = some .function) :
    Pattern.ofForms? forms multiline = some (if forms.head? = some .function
      then .ofEach forms multiline else (Pattern.ofEach forms multiline).behindEmpty) := by
  rw [Pattern.ofForms?, if_pos distinct]
  split
  · rename_i leads
    obtain ⟨rest, rfl⟩ := List.head?_eq_some_iff.1 leads
    rw [List.foldl_cons, foldl_joinForm _ (List.nodup_cons.1 distinct).1]
    rfl
  · rename_i other
    rw [foldl_joinForm _ fun inside => other (first inside)]
    rfl

end Forms

def Pattern.Solid (p : Pattern) : Prop :=
  ∀ (lineStart : Bool) (c : Cursor),
    (∀ nonempty, p.matchAt (p.startsHere lineStart c) nonempty c = none) ∨
    ∃ m d, m.start = c.offset ∧ m.text ≠ [] ∧ c.Reads m.text d ∧
      ∀ nonempty, p.matchAt (p.startsHere lineStart c) nonempty c = some m

theorem solid_ofEach (forms : List Form) (multiline : Bool) :
    (Pattern.ofEach forms multiline).Solid := by
  intro lineStart c
  simp only [matchAt_ofEach]
  cases (Pattern.ofEach forms multiline).startsHere lineStart c with
  | false => exact Or.inl fun _ => rfl
  | true =>
    cases read : oneOf? forms c with
    | none => exact Or.inl fun _ => rfl
    | some r =>
      obtain ⟨text, reads⟩ := reads_of_oneOf? read
      exact Or.inr ⟨_, r.2, rfl, text, reads, fun _ => rfl⟩

def Pattern.search (p : Pattern) (lineStart : Bool) (c : Cursor) : List Match :=
  p.allFrom [] lineStart false c

section Rounds

variable {p : Pattern} {lineStart : Bool} {c d : Cursor} {m : Match}

theorem drop_of_reads (reads : c.Reads m.text d) : c.drop m.text.length = d := by
  rw [Cursor.drop, ← reads.2, reads.1, List.drop_left]

theorem rest_of_reads (reads : c.Reads m.text d) (text : m.text ≠ []) : c.rest ≠ [] := by
  rw [reads.1]
  simp [text]

theorem search_found (text : m.text ≠ []) (reads : c.Reads m.text d)
    (found : ∀ nonempty, p.matchAt (p.startsHere lineStart c) nonempty c = some m) :
    p.search lineStart c = m :: p.search (m.text.getLast? == some '\n') d := by
  rw [Pattern.search, allFrom_match (found false) text (rest_of_reads reads text), allFrom_eq_append,
    drop_of_reads reads]
  rfl

theorem search_pass {x : Char} {rest : List Char}
    (misfit : ∀ nonempty, p.matchAt (p.startsHere lineStart c) nonempty c = none)
    (e : c.rest = x :: rest) : p.search lineStart c = p.search (x == '\n') ⟨c.offset + 1, rest⟩ := by
  rw [Pattern.search, allFrom_pass (misfit false) e]
  rfl

theorem search_end (misfit : ∀ nonempty, p.matchAt (p.startsHere lineStart c) nonempty c = none)
    (e : c.rest = []) : p.search lineStart c = [] := by
  rw [Pattern.search, allFrom_end (misfit false) e]
  rfl

theorem search_behindEmpty : p.behindEmpty.search lineStart c =
    Match.nothing c.offset :: p.behindEmpty.allFrom [] lineStart true c := by
  rw [Pattern.search, allFrom_empty (matchAt_behindEmpty p) rfl, allFrom_eq_append]
  rfl

theorem search_behindEmpty_found (text : m.text ≠ []) (reads : c.Reads m.text d)
    (found : ∀ nonempty, p.matchAt (p.startsHere lineStart c) nonempty c = some m) :
    p.behindEmpty.search lineStart c = Match.nothing c.offset :: m ::
      p.behindEmpty.search (m.text.getLast? == some '\n') d := by
  have again := (matchAt_behindEmpty_again p).trans (found true)
  rw [search_behindEmpty, allFrom_match again text (rest_of_reads reads text), allFrom_eq_append,
    drop_of_reads reads]
  rfl

theorem search_behindEmpty_pass {x : Char} {rest : List Char}
    (misfit : ∀ nonempty, p.matchAt (p.startsHere lineStart c) nonempty c = none)
    (e : c.rest = x :: rest) : p.behindEmpty.search lineStart c =
      Match.nothing c.offset :: p.behindEmpty.search (x == '\n') ⟨c.offset + 1, rest⟩ := by
  have again := (matchAt_behindEmpty_again p).trans (misfit true)
  rw [search_behindEmpty, allFrom_pass again e]
  rfl

theorem search_behindEmpty_end
    (misfit : ∀ nonempty, p.matchAt (p.startsHere lineStart c) nonempty c = none)
    (e : c.rest = []) : p.behindEmpty.search lineStart c = [Match.nothing c.offset] := by
  have again := (matchAt_behindEmpty_again p).trans (misfit true)
  rw [search_behindEmpty, allFrom_end again e]
  rfl

/-- A search goes on from round to round: behind a match, or by one character, up to the end. -/
theorem Pattern.Solid.induction (solid : p.Solid) {motive : Bool → Cursor → Prop}
    (found : ∀ lineStart c m d, m.start = c.offset → m.text ≠ [] → c.Reads m.text d →
      (∀ nonempty, p.matchAt (p.startsHere lineStart c) nonempty c = some m) →
      motive (m.text.getLast? == some '\n') d → motive lineStart c)
    (pass : ∀ lineStart c x rest,
      (∀ nonempty, p.matchAt (p.startsHere lineStart c) nonempty c = none) → c.rest = x :: rest →
      motive (x == '\n') ⟨c.offset + 1, rest⟩ → motive lineStart c)
    (last : ∀ lineStart c, (∀ nonempty, p.matchAt (p.startsHere lineStart c) nonempty c = none) →
      c.rest = [] → motive lineStart c) (lineStart : Bool) (c : Cursor) : motive lineStart c := by
  induction size : c.rest.length using Nat.strongRecOn generalizing lineStart c with
  | ind n ih =>
    rcases solid lineStart c with misfit | ⟨m, d, start, text, reads, here⟩
    · cases e : c.rest with
      | nil => exact last lineStart c misfit e
      | cons x rest =>
        have less : rest.length < n := by
          rw [← size, e]
          exact Nat.lt_succ_self _
        exact pass lineStart c x rest misfit e (ih _ less _ _ rfl)
    · have less : d.rest.length < n := by
        have := List.length_pos_iff.2 text
        rw [← size, reads.1, List.length_append]
        omega
      exact found lineStart c m d start text reads here (ih _ less _ _ rfl)

def filled (ms : List Match) : List Match := ms.filter fun m => !m.text.isEmpty

/-- What there is at an offset among the given matches: nothing inside of one of them, else the match
    of no text, and behind it the match that begins there. -/
def around (ms : List Match) (q : Nat) : List Match :=
  (if ms.any fun m => m.start < q && q < m.stop then [] else [Match.nothing q]) ++
    ms.filter (·.start == q)

section Around

variable {ms : List Match} {m : Match} {q : Nat}

theorem around_of_ahead (ahead : ∀ n ∈ ms, q < n.start) : around ms q = [Match.nothing q] := by
  have outside : (ms.any fun m => m.start < q && q < m.stop) = false := by
    rw [List.any_eq_false]
    intro n member
    have := ahead n member
    simp only [Bool.and_eq_true, decide_eq_true_eq]
    omega
  have none_begins : ms.filter (·.start == q) = [] := by
    rw [List.filter_eq_nil_iff]
    intro n member
    have := ahead n member
    simp only [beq_iff_eq]
    omega
  rw [around, outside, none_begins]
  rfl

theorem around_begin (text : m.text ≠ []) (later : ∀ n ∈ ms, m.stop ≤ n.start) :
    around (m :: ms) m.start = [Match.nothing m.start, m] := by
  have size := List.length_pos_iff.2 text
  have ahead : ∀ n ∈ ms, m.start < n.start := by
    intro n member
    have := later n member
    unfold Match.stop at this
    omega
  have rest := around_of_ahead ahead
  rw [around] at rest ⊢
  have none_begins : ms.filter (·.start == m.start) = [] := by
    rw [List.filter_eq_nil_iff]
    intro n member
    have := ahead n member
    simp only [beq_iff_eq]
    omega
  rw [none_begins, List.append_nil] at rest
  simp only [List.any_cons, Nat.lt_irrefl, decide_false, Bool.false_and, Bool.false_or, rest,
    List.filter_cons, none_begins, beq_self_eq_true, if_true]
  rfl

theorem around_inside (begun : m.start < q) (within : q < m.stop)
    (later : ∀ n ∈ ms, m.stop ≤ n.start) : around (m :: ms) q = [] := by
  have none_begins : (m :: ms).filter (·.start == q) = [] := by
    rw [List.filter_eq_nil_iff]
    intro n member
    simp only [beq_iff_eq]
    rcases List.mem_cons.1 member with rfl | member
    · omega
    · have := later n member
      omega
  rw [around, none_begins, List.any_cons]
  simp [begun, within]

theorem around_behind (text : m.text ≠ []) (behind : m.stop ≤ q) :
    around (m :: ms) q = around ms q := by
  have size := List.length_pos_iff.2 text
  have past : ¬ q < m.stop := by omega
  have not_begun : (m.start == q) = false := by
    unfold Match.stop at behind
    simp only [beq_eq_false_iff_ne]
    omega
  simp [around, past, not_begun]

end Around

section Search

variable {p : Pattern} (solid : p.Solid) (lineStart : Bool) (c : Cursor)

include solid

theorem search_ordered : (p.search lineStart c).Pairwise (fun m n => m.stop ≤ n.start) ∧
    ∀ m ∈ p.search lineStart c, c.offset ≤ m.start ∧ m.text ≠ [] := by
  induction lineStart, c using solid.induction with
  | found lineStart c m d start text reads here ih =>
    obtain ⟨ordered, bounds⟩ := ih
    have stop : m.stop = d.offset := by rw [Match.stop, start, reads.2]
    rw [search_found text reads here]
    refine ⟨List.pairwise_cons.2 ⟨fun n member => ?_, ordered⟩, ?_⟩
    · rw [stop]
      exact (bounds n member).1
    · intro n member
      rcases List.mem_cons.1 member with rfl | member
      · exact ⟨Nat.le_of_eq start.symm, text⟩
      · have := (bounds n member).1
        have := reads.2
        exact ⟨by omega, (bounds n member).2⟩
  | pass lineStart c x rest misfit e ih =>
    obtain ⟨ordered, bounds⟩ := ih
    rw [search_pass misfit e]
    refine ⟨ordered, fun n member => ?_⟩
    have : c.offset + 1 ≤ n.start := (bounds n member).1
    exact ⟨by omega, (bounds n member).2⟩
  | last lineStart c misfit e =>
    rw [search_end misfit e]
    exact ⟨List.Pairwise.nil, by simp⟩

theorem filled_behindEmpty :
    filled (p.behindEmpty.search lineStart c) = p.search lineStart c := by
  have drop_nothing (o : Nat) (ms : List Match) : filled (Match.nothing o :: ms) = filled ms := rfl
  induction lineStart, c using solid.induction with
  | found lineStart c m d start text reads here ih =>
    have keep : filled (m :: p.behindEmpty.search (m.text.getLast? == some '\n') d) =
        m :: filled (p.behindEmpty.search (m.text.getLast? == some '\n') d) := by
      simp [filled, text]
    rw [search_behindEmpty_found text reads here, search_found text reads here, drop_nothing, keep, ih]
  | pass lineStart c x rest misfit e ih =>
    rw [search_behindEmpty_pass misfit e, search_pass misfit e, drop_nothing, ih]
  | last lineStart c misfit e =>
    rw [search_behindEmpty_end misfit e, search_end misfit e]
    rfl

theorem search_behindEmpty_eq : p.behindEmpty.search lineStart c =
    (List.range' c.offset (c.rest.length + 1)).flatMap (around (p.search lineStart c)) := by
  induction lineStart, c using solid.induction with
  | found lineStart c m d start text reads here ih =>
    have size : c.rest.length + 1 = m.text.length + (d.rest.length + 1) := by
      rw [reads.1, List.length_append, Nat.add_assoc]
    have later : ∀ n ∈ p.search (m.text.getLast? == some '\n') d, m.stop ≤ n.start := by
      intro n member
      have := ((search_ordered solid _ d).2 n member).1
      rw [Match.stop, start, ← reads.2]
      exact this
    have within : (List.range' c.offset m.text.length).flatMap
        (around (m :: p.search (m.text.getLast? == some '\n') d)) = [Match.nothing c.offset, m] := by
      obtain ⟨l, length⟩ := Nat.exists_eq_add_one.2 (List.length_pos_iff.2 text)
      have inside : (List.range' (c.offset + 1) l).flatMap
          (around (m :: p.search (m.text.getLast? == some '\n') d)) = [] := by
        rw [List.flatMap_eq_nil_iff]
        intro q member
        obtain ⟨above, below⟩ := List.mem_range'_1.1 member
        exact around_inside (by omega) (by unfold Match.stop; omega) later
      rw [length, List.range'_succ, List.flatMap_cons, inside, ← start, around_begin text later]
      rfl
    have behind : (List.range' d.offset (d.rest.length + 1)).flatMap
        (around (m :: p.search (m.text.getLast? == some '\n') d)) =
        p.behindEmpty.search (m.text.getLast? == some '\n') d := by
      rw [ih]
      refine List.flatMap_congr fun q member => around_behind text ?_
      have := (List.mem_range'_1.1 member).1
      rw [Match.stop, start, ← reads.2]
      exact this
    rw [search_behindEmpty_found text reads here, search_found text reads here, size,
      ← List.range'_append_1, List.flatMap_append, within, ← reads.2, behind]
    rfl
  | pass lineStart c x rest misfit e ih =>
    have ahead : ∀ n ∈ p.search (x == '\n') ⟨c.offset + 1, rest⟩, c.offset < n.start := by
      intro n member
      exact ((search_ordered solid _ _).2 n member).1
    have first : List.range' c.offset (rest.length + 1 + 1) =
        c.offset :: List.range' (c.offset + 1) (rest.length + 1) := List.range'_succ
    rw [search_behindEmpty_pass misfit e, search_pass misfit e, ih, e, List.length_cons, first,
      List.flatMap_cons, around_of_ahead ahead]
    rfl
  | last lineStart c misfit e =>
    rw [search_behindEmpty_end misfit e, search_end misfit e, e]
    rfl

end Search

end Rounds

section Forms

variable {forms forms' : List Form} {multiline : Bool}

theorem search_congr (same : ∀ f, f ∈ forms ↔ f ∈ forms') (lineStart : Bool) (c : Cursor) :
    (Pattern.ofEach forms multiline).search lineStart c =
      (Pattern.ofEach forms' multiline).search lineStart c := by
  have matches_same {here nonempty : Bool} {c : Cursor} :
      (Pattern.ofEach forms' multiline).matchAt here nonempty c =
        (Pattern.ofEach forms multiline).matchAt here nonempty c := by
    rw [matchAt_ofEach, matchAt_ofEach, oneOf?_congr same]
  induction lineStart, c using (solid_ofEach forms multiline).induction with
  | found lineStart c m d start text reads here ih =>
    rw [search_found text reads here, search_found text reads fun nonempty =>
      matches_same.trans (here nonempty), ih]
  | pass lineStart c x rest misfit e ih =>
    rw [search_pass misfit e, search_pass (fun nonempty => matches_same.trans (misfit nonempty)) e, ih]
  | last lineStart c misfit e =>
    rw [search_end misfit e, search_end (fun nonempty => matches_same.trans (misfit nonempty)) e]

theorem search_beyond_start (lineStart : Bool) (c : Cursor) (beyond : 0 < c.offset) :
    (Pattern.ofEach forms false).search lineStart c = [] := by
  have misfit {lineStart : Bool} {c : Cursor} (beyond : 0 < c.offset) (nonempty : Bool) :
      (Pattern.ofEach forms false).matchAt
        ((Pattern.ofEach forms false).startsHere lineStart c) nonempty c = none := by
    have elsewhere : (Pattern.ofEach forms false).startsHere lineStart c = false := by
      change (c.offset == 0) = false
      rw [beq_eq_false_iff_ne]
      omega
    rw [matchAt_ofEach, elsewhere]
    rfl
  induction lineStart, c using (solid_ofEach forms false).induction with
  | found lineStart c m d start text reads here ih =>
    have found := (misfit beyond true).symm.trans (here true)
    cases found
  | pass lineStart c x rest misfit' e ih =>
    rw [search_pass misfit' e]
    exact ih (Nat.succ_pos _)
  | last lineStart c misfit' e => exact search_end misfit' e

theorem search_single (lineStart : Bool) (t : List Char) :
    let ms := (Pattern.ofEach forms false).search lineStart (Cursor.ofText t)
    ms.length ≤ 1 ∧ ∀ m ∈ ms, m.start = 0 := by
  intro ms
  rcases solid_ofEach forms false lineStart (Cursor.ofText t) with
    misfit | ⟨m, d, start, text, reads, here⟩
  · have empty : ms = [] := by
      cases t with
      | nil => exact search_end misfit rfl
      | cons x t => exact (search_pass misfit rfl).trans (search_beyond_start _ _ Nat.one_pos)
    rw [empty]
    exact ⟨Nat.zero_le _, by simp⟩
  · have beyond : 0 < d.offset := by
      have := List.length_pos_iff.2 text
      have := reads.2
      omega
    have single : ms = [m] := by
      refine (search_found text reads here).trans ?_
      rw [search_beyond_start _ _ beyond]
    rw [single]
    refine ⟨Nat.le_refl _, fun n member => ?_⟩
    obtain rfl := List.mem_singleton.1 member
    exact start

theorem filled_of_solid {p : Pattern} (solid : p.Solid) (t : List Char) : filled (p.all t) = p.all t := by
  refine List.filter_eq_self.2 fun m member => ?_
  have text := ((search_ordered solid true (Cursor.ofText t)).2 m member).2
  simpa using text

/-- Without empty alternatives, and behind one: the matches that take up text are the same. -/
theorem filled_all_of_ofForms? {p : Pattern} (t : List Char)
    (first : Form.function ∈ forms → forms.head? = some .function)
    (pattern : Pattern.ofForms? forms multiline = some p) :
    filled (p.all t) = (Pattern.ofEach forms multiline).all t := by
  have distinct : forms.Nodup := by
    by_contra repeated
    rw [Pattern.ofForms?, if_neg repeated] at pattern
    cases pattern
  rw [ofForms?_eq distinct first, Option.some.injEq] at pattern
  have solid := solid_ofEach forms multiline
  rw [← pattern]
  split
  · exact filled_of_solid solid t
  · exact filled_behindEmpty solid true (Cursor.ofText t)

/-- The order of the forms is irrelevant, and an empty alternative hides nothing. No two forms match
    at one place, and so the matches that take up text depend only on which forms are wanted. With the
    header first there are no other matches; otherwise there is a match of no text at every offset
    that no other match lies around, in front of the match that begins there. Where forms start at
    the start of the text alone, there is at most one match that takes up text, and it starts there. -/
theorem all_ofForms (t : List Char) (multiline : Bool) {forms : List Form} (distinct : forms.Nodup)
    (first : Form.function ∈ forms → forms.head? = some .function) :
    (∀ q (f g : Form), f.MatchesAt t q → g.MatchesAt t q → f = g) ∧
    ∃ p, Pattern.ofForms? forms multiline = some p ∧
      (∀ forms' p', (Form.function ∈ forms' → forms'.head? = some .function) →
        (∀ f, f ∈ forms' ↔ f ∈ forms) → Pattern.ofForms? forms' multiline = some p' →
        filled (p'.all t) = filled (p.all t)) ∧
      (filled (p.all t)).Pairwise (fun m n => m.stop ≤ n.start) ∧
      (forms.head? = some .function → ∀ m ∈ p.all t, m.text ≠ []) ∧
      (forms.head? ≠ some .function →
        p.all t = (List.range (t.length + 1)).flatMap (around (filled (p.all t)))) ∧
      (multiline = false →
        (filled (p.all t)).length ≤ 1 ∧ ∀ m ∈ filled (p.all t), m.start = 0) := by
  have solid := solid_ofEach forms multiline
  refine ⟨?_, _, ofForms?_eq distinct first, ?_⟩
  · intro q f g left right
    obtain ⟨r, read⟩ := Option.isSome_iff_exists.1 (matchesAt_iff.1 left).2
    obtain ⟨r', read'⟩ := Option.isSome_iff_exists.1 (matchesAt_iff.1 right).2
    exact form_eq_of_at? read read'
  · rw [filled_all_of_ofForms? t first (ofForms?_eq distinct first)]
    refine ⟨?_, (search_ordered solid _ _).1, ?_, ?_, ?_⟩
    · intro forms' p' first' same pattern
      rw [filled_all_of_ofForms? t first' pattern]
      exact search_congr same true (Cursor.ofText t)
    · intro leads m member
      rw [if_pos leads] at member
      exact ((search_ordered solid _ _).2 m member).2
    · intro other
      rw [if_neg other, List.range_eq_range']
      exact search_behindEmpty_eq solid true (Cursor.ofText t)
    · rintro rfl
      exact search_single true t

def importAndAlias : List Char := "import a from 'b';\ntype C = D;\n".toList

theorem all_ofForms_importAndAlias :
    [Form.typeAlias, .importFrom].Nodup ∧ Form.function ∉ [Form.typeAlias, .importFrom] ∧
    ∃ p p', Pattern.ofForms? [.typeAlias, .importFrom] true = some p ∧
      Pattern.ofForms? [.importFrom, .typeAlias] true = some p' ∧
      filled (p'.all importAndAlias) = filled (p.all importAndAlias) ∧
      p.all importAndAlias = (List.range 32).flatMap (around (filled (p.all importAndAlias))) := by
  have headless : Form.function ∉ [Form.typeAlias, .importFrom] := by decide
  have headless' : Form.function ∉ [Form.importFrom, .typeAlias] := by decide
  obtain ⟨_, p, pattern, alike, _, _, empties, _⟩ :=
    all_ofForms importAndAlias true (by decide) fun header => absurd header headless
  obtain ⟨_, p', pattern', _⟩ :=
    all_ofForms importAndAlias true (by decide) fun header => absurd header headless'
  refine ⟨by decide, headless, p, p', pattern, pattern', ?_, empties (by decide)⟩
  exact alike _ p' (fun header => absurd header headless') (by simp [or_comm]) pattern'

end Forms

end SourceSpecs.Declaration
