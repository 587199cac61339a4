import SourceSpecs.Proofs.JsonReading
/-!
The characters of a JSON text. It is ASCII throughout, and no control character stands in a string of
it.
-/
namespace SourceSpecs.Json

inductive Zone where
  | outside | inside | escaped

/-- No character in a string is a control character, if the text begins in the given zone. -/
def controlFree (zone : Zone) : List Char → Bool
  | [] => true
  | c :: t =>
    match zone with
    | .outside => controlFree (if c = '"' then .inside else .outside) t
    | .inside => 0x20 ≤ c.toNat &&
      controlFree (if c = '"' then .outside else if c = '\\' then .escaped else .inside) t
    | .escaped => 0x20 ≤ c.toNat && controlFree .inside t

theorem controlFree_plain {w : List Char} (plain : ∀ c ∈ w, Plain c) (t : List Char) :
    controlFree .inside (w ++ t) = controlFree .inside t := by
  induction w with
  | nil => rfl
  | cons c w ih =>
    obtain ⟨graphic, _, quote, slash⟩ := plain c List.mem_cons_self
    rw [List.cons_append, controlFree, if_neg quote, if_neg slash,
      ih fun d member => plain d (List.mem_cons_of_mem c member), decide_eq_true graphic, Bool.true_and]

theorem controlFree_escaped {e : Char} (graphic : 0x20 ≤ e.toNat) (t : List Char) :
    controlFree .inside ('\\' :: e :: t) = controlFree .inside t := by
  rw [controlFree, if_neg (by decide), if_pos rfl, controlFree, decide_eq_true graphic, Bool.true_and]
  rfl

theorem plain_hexDigit (n : Nat) : Plain (hexDigit n) := by
  have each : ∀ m < 16, 0x20 ≤ (Nat.digitChar m).toNat ∧ (Nat.digitChar m).toNat < 0x7F ∧
      Nat.digitChar m ≠ '"' ∧ Nat.digitChar m ≠ '\\' := by decide
  exact each (n % 16) (Nat.mod_lt n (by decide))

theorem plain_hex4 (u : Nat) : ∀ c ∈ hex4 u, Plain c := by
  intro c member
  simp only [hex4, List.mem_cons, List.not_mem_nil, or_false] at member
  rcases member with rfl | rfl | rfl | rfl <;> exact plain_hexDigit _

theorem graphic_of_shortEscape? {e c : Char} (short : shortEscape? e = some c) :
    0x20 ≤ e.toNat ∧ e.toNat ≤ 0x7F := by
  unfold shortEscape? at short
  split at short <;> first | decide | cases short

theorem controlFree_units (us : List Nat) (t : List Char) :
    controlFree .inside ((us.flatMap fun u => '\\' :: 'u' :: hex4 u) ++ t) = controlFree .inside t := by
  induction us with
  | nil => rfl
  | cons u us ih =>
    rw [List.flatMap_cons, List.append_assoc, List.cons_append, List.cons_append,
      controlFree_escaped (by decide), controlFree_plain (plain_hex4 u), ih]

theorem controlFree_escape (c : Char) (t : List Char) :
    controlFree .inside (escape c ++ t) = controlFree .inside t := by
  rcases escape_cases c with ⟨e, whole, short⟩ | ⟨whole, plain⟩ | whole
  · rw [whole]
    exact controlFree_escaped (graphic_of_shortEscape? short).1 t
  · rw [whole]
    exact controlFree_plain (by simpa using plain) t
  · rw [whole]
    exact controlFree_units _ t

theorem escape_ascii (c : Char) : ∀ x ∈ escape c, x.toNat ≤ 0x7F := by
  intro x member
  rcases escape_cases c with ⟨e, whole, short⟩ | ⟨whole, plain⟩ | whole
  · rw [whole] at member
    simp only [List.mem_cons, List.not_mem_nil, or_false] at member
    rcases member with rfl | rfl
    · decide
    · exact (graphic_of_shortEscape? short).2
  · rw [whole, List.mem_singleton] at member
    rw [member]
    exact Nat.le_of_lt plain.2.1
  · rw [whole] at member
    obtain ⟨u, _, here⟩ := List.mem_flatMap.1 member
    rcases List.mem_cons.1 here with rfl | here
    · decide
    rcases List.mem_cons.1 here with rfl | here
    · decide
    · exact Nat.le_of_lt (plain_hex4 u x here).2.1

/-- Text that is ASCII and leaves a scan outside of strings, with no control character in them. -/
structure Tame (w : List Char) : Prop where
  ascii : ∀ c ∈ w, c.toNat ≤ 0x7F
  control : ∀ t, controlFree .outside (w ++ t) = controlFree .outside t

namespace Tame

variable {v w : List Char}

theorem nil : Tame [] := ⟨by simp, fun _ => rfl⟩

theorem append (h : Tame v) (h' : Tame w) : Tame (v ++ w) := by
  constructor
  · intro c member
    rcases List.mem_append.1 member with front | behind
    · exact h.ascii c front
    · exact h'.ascii c behind
  · intro t
    rw [List.append_assoc, h.control, h'.control]

theorem cons {c : Char} (small : c.toNat ≤ 0x7F) (other : c ≠ '"') (h : Tame w) : Tame (c :: w) := by
  constructor
  · intro x member
    rcases List.mem_cons.1 member with rfl | behind
    · exact small
    · exact h.ascii x behind
  · intro t
    rw [List.cons_append, controlFree, if_neg other]
    exact h.control t

theorem of_forall (plain : ∀ c ∈ w, c.toNat ≤ 0x7F ∧ c ≠ '"') : Tame w := by
  induction w with
  | nil => exact nil
  | cons c w ih =>
    obtain ⟨small, other⟩ := plain c List.mem_cons_self
    exact cons small other (ih fun d member => plain d (List.mem_cons_of_mem c member))

theorem quote (s : List Char) : Tame (quote s) := by
  have inside (t : List Char) : controlFree .inside (s.flatMap escape ++ t) = controlFree .inside t := by
    induction s with
    | nil => rfl
    | cons c s ih => rw [List.flatMap_cons, List.append_assoc, controlFree_escape, ih]
  constructor
  · intro c member
    rcases List.mem_cons.1 member with rfl | member
    · decide
    rcases List.mem_append.1 member with member | closing
    · obtain ⟨d, _, here⟩ := List.mem_flatMap.1 member
      exact escape_ascii d c here
    · rw [List.mem_singleton.1 closing]
      decide
  · intro t
    have whole : Json.quote s ++ t = '"' :: (s.flatMap escape ++ '"' :: t) := by
      simp [Json.quote]
    rw [whole, controlFree, if_pos rfl, inside, controlFree, if_pos rfl]
    rfl

theorem newLine (d : Nat) : Tame (newLine d) := by
  refine cons (by decide) (by decide) (of_forall ?_)
  intro c member
  rw [List.eq_of_mem_replicate member]
  decide

end Tame

theorem tame_printItems {js : List Json} (items : ∀ j ∈ js, ∀ d, Tame (print d j)) (d : Nat) :
    Tame (printItems d js) := by
  induction js with
  | nil => exact .nil
  | cons j js ih =>
    have first := items j List.mem_cons_self (d + 1)
    have later := ih fun j member => items j (List.mem_cons_of_mem _ member)
    have comma : Tame (',' :: Json.newLine (d + 1)) := (Tame.newLine _).cons (by decide) (by decide)
    rw [printItems]
    exact (comma.append first).append later

theorem tame_printMembers {ms : List (String × Json)} (members : ∀ m ∈ ms, ∀ d, Tame (print d m.2))
    (d : Nat) : Tame (printMembers d ms) := by
  induction ms with
  | nil => exact .nil
  | cons member ms ih =>
    obtain ⟨k, j⟩ := member
    have first := members (k, j) List.mem_cons_self (d + 1)
    have later := ih fun m member => members m (List.mem_cons_of_mem _ member)
    have comma : Tame (',' :: Json.newLine (d + 1)) := (Tame.newLine _).cons (by decide) (by decide)
    have colon : Tame [':', ' '] := .of_forall (by simp)
    have named := (comma.append (.quote k.toList)).append colon
    rw [printMembers]
    exact (named.append first).append later

theorem tame_print (j : Json) : ∀ d, Tame (print d j) := by
  induction j using induction_on with
  | null =>
    intro d
    rw [print]
    exact .of_forall (by simp)
  | bool b =>
    intro d
    rw [print]
    cases b with
    | true => exact .of_forall (by simp)
    | false => exact .of_forall (by simp)
  | number n =>
    intro d
    rw [print, toList_toString]
    apply Tame.of_forall
    intro c member
    have digit : c.isDigit = true := Nat.isDigit_of_mem_toDigits (by decide) (by decide) member
    have range := digit
    simp only [Char.isDigit, Bool.and_eq_true, decide_eq_true_eq] at range
    have small : c.toNat ≤ 57 := UInt32.le_iff_toNat_le.1 range.2
    exact ⟨by omega, ne_of_isDigit digit rfl⟩
  | string s =>
    intro d
    exact .quote s.toList
  | array js ih =>
    intro d
    cases js with
    | nil =>
      rw [print]
      exact .of_forall (by simp)
    | cons j js =>
      have opening : Tame ('[' :: Json.newLine (d + 1)) := (Tame.newLine _).cons (by decide) (by decide)
      have first := ih j List.mem_cons_self (d + 1)
      have later := tame_printItems (fun j member => ih j (List.mem_cons_of_mem _ member)) d
      have closing : Tame [']'] := .of_forall (by simp)
      rw [print]
      exact (((opening.append first).append later).append (.newLine d)).append closing
  | object ms ih =>
    intro d
    rcases ms with _ | ⟨⟨k, j⟩, ms⟩
    · rw [print]
      exact .of_forall (by simp)
    · have opening : Tame ('{' :: Json.newLine (d + 1)) := (Tame.newLine _).cons (by decide) (by decide)
      have colon : Tame [':', ' '] := .of_forall (by simp)
      have named := (opening.append (.quote k.toList)).append colon
      have first := ih (k, j) List.mem_cons_self (d + 1)
      have later := tame_printMembers (fun m member => ih m (List.mem_cons_of_mem _ member)) d
      have closing : Tame ['}'] := .of_forall (by simp)
      rw [print]
      exact (((named.append first).append later).append (.newLine d)).append closing

theorem render_ascii (j : Json) : ∀ c ∈ j.render.toList, c.toNat ≤ 0x7F := by
  rw [render, String.toList_ofList]
  exact (tame_print j 0).ascii

theorem controlFree_render (j : Json) : controlFree .outside j.render.toList = true := by
  have scanned := (tame_print j 0).control []
  rw [List.append_nil] at scanned
  rw [render, String.toList_ofList, scanned]
  rfl

end SourceSpecs.Json
