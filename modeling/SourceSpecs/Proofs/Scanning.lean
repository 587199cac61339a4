import SourceSpecs.Declaration.Basic
import SourceSpecs.Proofs.HeaderReading
/-!
The scan of a text one step at a time. At a start of a line the first form that can be read there
is a declaration, and the scan goes on behind it; everywhere else it goes on by one character.
-/
namespace SourceSpecs.Declaration

def firstForm? (c : Cursor) : Option (Capture × Cursor) := Form.all.findSome? (·.at? c)

def between (c : Cursor) (capture : Capture) (d : Cursor) : Declaration :=
  let text := c.rest.take (d.offset - c.offset)
  ⟨c.offset, String.ofList text, shapeOf ⟨c.offset, text, [capture]⟩ capture⟩

def scanFrom (lineStart : Bool) (c : Cursor) : List Declaration :=
  (Pattern.declarations.allFrom [] lineStart false c).flatMap ofMatch

theorem scan_eq_scanFrom (t : List Char) : scan t = scanFrom true (Cursor.ofText t) := rfl

theorem firstForm?_eq_none_iff {c : Cursor} :
    firstForm? c = none ↔ ∀ (f : Form) (d : Cursor), ¬ Takes f.written c d := by
  have all (f : Form) : f ∈ Form.all := by cases f <;> decide
  simp only [firstForm?, List.findSome?_eq_none_iff, all, true_implies]
  refine forall_congr' fun f => ?_
  rw [← not_exists, ← at?_isSome_iff, Option.not_isSome_iff_eq_none]

theorem exists_form_of_firstForm? {c : Cursor} {r : Capture × Cursor}
    (h : firstForm? c = some r) : ∃ f : Form, f.at? c = some r := by
  obtain ⟨f, _, read⟩ := List.exists_of_findSome?_eq_some h
  exact ⟨f, read⟩

def Form.kind : Form → Kind
  | .function => .function
  | .interface => .interface
  | .typeAlias => .typeAlias
  | .importFrom => .importFrom
  | .require => .require

theorem at?_kind {f : Form} {c d : Cursor} {capture : Capture}
    (h : f.at? c = some (capture, d)) (m : Match) : (shapeOf m capture).kind = f.kind := by
  have constant : f.read (fun capture _ => some (shapeOf m capture).kind) c =
      f.read (fun _ _ => some f.kind) c := by
    cases f <;> rfl
  rw [f.read_some (fun capture _ => (shapeOf m capture).kind), f.read_some (fun _ _ => f.kind),
    h] at constant
  exact Option.some.inj constant

theorem reads_of_firstForm? {c d : Cursor} {capture : Capture}
    (h : firstForm? c = some (capture, d)) :
    ∃ w, c.Reads w d ∧ w.getLast? = some '\n' := by
  obtain ⟨f, read⟩ := exists_form_of_firstForm? h
  obtain ⟨w, member, reads⟩ : Takes f.written c d := ((finds_form f).best read).1
  exact ⟨w, reads, written_ends_line member⟩

theorem between_text {c d : Cursor} {w : List Char} (reads : c.Reads w d) (capture : Capture) :
    (between c capture d).text = String.ofList w := by
  have size : d.offset - c.offset = w.length := by have := reads.2; omega
  simp [between, size, reads.1]

theorem matchAt_lineStart (c : Cursor) :
    Pattern.declarations.matchAt true false c = (firstForm? c).map fun r =>
      ⟨c.offset, c.rest.take (r.2.offset - c.offset), [r.1]⟩ := by
  have row (f : Form) : readRow true [f] true [] (fun captures d =>
      if (false && c.offset == d.offset) = true then none
      else some (⟨c.offset, c.rest.take (d.offset - c.offset), captures⟩ : Match)) c =
      (f.at? c).map fun r => ⟨c.offset, c.rest.take (r.2.offset - c.offset), [r.1]⟩ := by
    simpa [readRow] using f.read_some (fun capture d =>
      (⟨c.offset, c.rest.take (d.offset - c.offset), [capture]⟩ : Match)) c
  simp only [Pattern.matchAt, Pattern.declarations, List.findSome?_map, Function.comp_def, row,
    firstForm?, List.map_findSome?]

theorem matchAt_inLine (c : Cursor) : Pattern.declarations.matchAt false false c = none := by
  simp [Pattern.matchAt, Pattern.declarations, Form.all, readRow]

section Loop

variable {p : Pattern} {found : List Match} {lineStart afterEmpty : Bool} {c : Cursor} {m : Match}

theorem allFrom_match (h : p.matchAt (p.startsHere lineStart c) afterEmpty c = some m)
    (text : m.text ≠ []) (rest : c.rest ≠ []) :
    p.allFrom found lineStart afterEmpty c =
      p.allFrom (m :: found) (m.text.getLast? == some '\n') false (c.drop m.text.length) := by
  rw [Pattern.allFrom, h]
  simp [text, rest]

/-- A match of nothing is followed by another try at the same place. -/
theorem allFrom_empty (h : p.matchAt (p.startsHere lineStart c) false c = some m)
    (text : m.text = []) :
    p.allFrom found lineStart false c = p.allFrom (m :: found) lineStart true c := by
  rw [Pattern.allFrom, h]
  simp [text]

theorem allFrom_pass {x : Char} {rest : List Char}
    (h : p.matchAt (p.startsHere lineStart c) afterEmpty c = none) (e : c.rest = x :: rest) :
    p.allFrom found lineStart afterEmpty c =
      p.allFrom found (x == '\n') false ⟨c.offset + 1, rest⟩ := by
  rw [Pattern.allFrom, h]
  obtain ⟨offset, _⟩ := c
  subst e
  rfl

theorem allFrom_end (h : p.matchAt (p.startsHere lineStart c) afterEmpty c = none)
    (e : c.rest = []) : p.allFrom found lineStart afterEmpty c = found.reverse := by
  rw [Pattern.allFrom, h]
  obtain ⟨offset, _⟩ := c
  subst e
  rfl

theorem allFrom_eq_append (found : List Match) :
    p.allFrom found lineStart afterEmpty c = found.reverse ++ p.allFrom [] lineStart afterEmpty c := by
  -- each round leaves less of the text, or comes behind a match of nothing
  induction size : 2 * c.rest.length + afterEmpty.not.toNat using Nat.strongRecOn
    generalizing found lineStart afterEmpty c with
  | ind n ih =>
    cases here : p.matchAt (p.startsHere lineStart c) afterEmpty c with
    | none =>
      cases e : c.rest with
      | nil => simp [allFrom_end here e]
      | cons x rest =>
        have less : 2 * rest.length + (false).not.toNat < n := by
          rw [← size, e, List.length_cons, Bool.not_false, Bool.toNat_true]
          omega
        rw [allFrom_pass here e, allFrom_pass here e]
        exact ih _ less found rfl
    | some m =>
      by_cases text : m.text = []
      · cases afterEmpty with
        | false =>
          have less : 2 * c.rest.length + (true).not.toNat < n := by
            rw [← size]
            simp
          rw [allFrom_empty here text, allFrom_empty here text, ih _ less (m :: found) rfl,
            ih _ less [m] rfl]
          simp
        | true =>
          rw [Pattern.allFrom, here, Pattern.allFrom, here]
          simp [text]
      · by_cases rest : c.rest = []
        · rw [Pattern.allFrom, here, Pattern.allFrom, here]
          simp [text, rest]
        · have less : 2 * (c.drop m.text.length).rest.length + (false).not.toNat < n := by
            have := List.length_pos_iff.2 text
            have := List.length_pos_iff.2 rest
            rw [← size, Cursor.drop, List.length_drop, Bool.not_false, Bool.toNat_true]
            omega
          rw [allFrom_match here text rest, allFrom_match here text rest, ih _ less (m :: found) rfl,
            ih _ less [m] rfl]
          simp

end Loop

section Declarations

variable {lineStart : Bool} {c : Cursor}

theorem match_nonempty {m : Match} (h : Pattern.declarations.matchAt lineStart false c = some m) :
    m.text ≠ [] ∧ c.rest ≠ [] := by
  cases lineStart with
  | false => simp [matchAt_inLine] at h
  | true =>
    rw [matchAt_lineStart] at h
    obtain ⟨⟨capture, d⟩, read, rfl⟩ := Option.map_eq_some_iff.1 h
    obtain ⟨w, reads, ends⟩ := reads_of_firstForm? read
    have size : d.offset - c.offset = w.length := by have := reads.2; omega
    cases w with
    | nil => simp at ends
    | cons x w => simp [size, reads.1]

end Declarations

theorem scanFrom_found {c d : Cursor} {capture : Capture}
    (h : firstForm? c = some (capture, d)) :
    scanFrom true c = between c capture d :: scanFrom true d := by
  obtain ⟨w, reads, ends⟩ := reads_of_firstForm? h
  have here := matchAt_lineStart c
  rw [h, Option.map_some] at here
  obtain ⟨text, rest⟩ := match_nonempty here
  have size : d.offset - c.offset = w.length := by have := reads.2; omega
  have behind : c.drop w.length = d := by
    rw [Cursor.drop, ← reads.2, reads.1, List.drop_left]
  rw [scanFrom, allFrom_match here text rest, allFrom_eq_append]
  simp [size, reads.1, ends, behind, scanFrom, ofMatch, between]

theorem scanFrom_pass {c : Cursor} {lineStart : Bool} {x : Char} {rest : List Char}
    (h : lineStart = true → firstForm? c = none) (e : c.rest = x :: rest) :
    scanFrom lineStart c = scanFrom (x == '\n') ⟨c.offset + 1, rest⟩ := by
  have here : Pattern.declarations.matchAt lineStart false c = none := by
    cases lineStart with
    | false => exact matchAt_inLine c
    | true => rw [matchAt_lineStart, h rfl, Option.map_none]
  rw [scanFrom, allFrom_pass here e, scanFrom]

theorem scanFrom_end {c : Cursor} (lineStart : Bool) (e : c.rest = []) :
    scanFrom lineStart c = [] := by
  cases here : Pattern.declarations.matchAt lineStart false c with
  | none => rw [scanFrom, allFrom_end here e]; rfl
  | some m => exact absurd e (match_nonempty here).2

end SourceSpecs.Declaration
