import SourceSpecs.Proofs.Closing
import SourceSpecs.Proofs.RoundTrip
/-!
A type alias and the brackets of its body. The alias is reported up to the first line that ends in
a semicolon, open brackets or not. So it is reported whole just where no line within its body ends
in a semicolon; any other alias is reported with brackets that are left open.
-/
namespace SourceSpecs.Block

open Text Declaration Syntax

/-- What is open behind a character of a body, if it may stand there. Each closing bracket closes the
    innermost one, and a semicolon stands between brackets. -/
def openBehind? (opened : List Opening) (c : Char) : Option (List Opening) :=
  if c = ';' ∧ opened = [] then none
  else if isCloser c then
    match opened with
    | b :: opened => if b.closer = c then some opened else none
    | [] => none
  else some ((openedBy c).toList ++ opened)

/-- What is open behind a text. -/
def openAfter? (t : List Char) : Option (List Opening) := t.foldlM openBehind? []

/-- A body without strings and comments that closes its own brackets, with no semicolon outside of
    them. -/
structure IsBody (body : List Char) : Prop where
  nonempty : body ≠ []
  unquoted : ∀ c ∈ body, isQuote c = false ∧ c ≠ '\x60'
  uncommented : ¬ "//".toList <:+: body ∧ ¬ "/*".toList <:+: body
  balanced : openAfter? body = some []

/-- The part of a body that stands before the first semicolon at the end of a line. -/
def beforeTerminator : List Char → List Char
  | [] => []
  | c :: t => if ";\n".toList <+: c :: t then [] else c :: beforeTerminator t

theorem beforeTerminator_prefix (body : List Char) : beforeTerminator body <+: body := by
  induction body with
  | nil => exact List.nil_prefix
  | cons c t ih =>
    rw [beforeTerminator]
    split
    · exact List.nil_prefix
    · exact List.cons_prefix_cons.2 ⟨rfl, ih⟩

theorem beforeTerminator_free (body : List Char) : ¬ ";\n".toList <:+: beforeTerminator body := by
  induction body with
  | nil => decide
  | cons c t ih =>
    rw [beforeTerminator]
    split
    · decide
    · rename_i apart
      rw [List.infix_cons_iff, not_or]
      refine ⟨fun here => apart (here.trans ?_), ih⟩
      exact List.cons_prefix_cons.2 ⟨rfl, beforeTerminator_prefix t⟩

theorem beforeTerminator_cases (body : List Char) :
    (¬ ";\n".toList <:+: body ∧ beforeTerminator body = body) ∨
      ∃ rest, body = beforeTerminator body ++ (";\n".toList ++ rest) := by
  induction body with
  | nil => exact Or.inl ⟨by decide, rfl⟩
  | cons c t ih =>
    rw [beforeTerminator]
    split
    · rename_i here
      obtain ⟨rest, parts⟩ := here
      exact Or.inr ⟨rest, parts.symm⟩
    · rename_i apart
      rcases ih with ⟨free, same⟩ | ⟨rest, parts⟩
      · exact Or.inl ⟨by rw [List.infix_cons_iff, not_or]; exact ⟨apart, free⟩, by rw [same]⟩
      · exact Or.inr ⟨rest, by rw [List.cons_append, ← parts]⟩

theorem closesFirst_of_free {body : List Char} (free : ¬ ";\n".toList <:+: body) :
    ClosesFirst ";\n" body := by
  rintro i less ⟨v, parts⟩
  rw [List.drop_append_of_le_length (Nat.le_of_lt less)] at parts
  cases behind : body.drop i with
  | nil => exact absurd (List.drop_eq_nil_iff.1 behind) (Nat.not_le_of_lt less)
  | cons x rest =>
    rw [behind] at parts
    cases rest with
    | nil => exact absurd (List.cons.inj (List.cons.inj parts).2).1 (by decide)
    | cons y rest =>
      have semicolon : ';' = x := (List.cons.inj parts).1
      have line_break : '\n' = y := (List.cons.inj (List.cons.inj parts).2).1
      rw [← semicolon, ← line_break] at behind
      exact free (List.infix_iff_prefix_suffix.2 ⟨_, ⟨rest, behind.symm⟩, List.drop_suffix i body⟩)

section Alias

variable {name : List Char} (exported : Bool) (body : List Char)

theorem dedent_typeAlias :
    dedent (typeAlias exported name body).text = (typeAlias exported name body).text := by
  have alone : render [typeAlias exported name body] = (typeAlias exported name body).text := by
    simp [render]
  rw [← alone]
  exact dedent_render List.mem_cons_self rfl

theorem text_append (rest : List Char) :
    (typeAlias exported name (body ++ (";\n".toList ++ rest))).text =
      (typeAlias exported name body).text ++ (rest ++ ";\n".toList) := by
  change _ ++ " = ".toList ++ (body ++ (";\n".toList ++ rest)) ++ _ = _ ++ " = ".toList ++ body ++ _ ++ _
  simp only [List.append_assoc]

theorem text_inj {name : List Char} (exported : Bool) {body body' : List Char}
    (same : (typeAlias exported name body).text = (typeAlias exported name body').text) :
    body = body' := by
  change _ ++ " = ".toList ++ body ++ _ = _ ++ " = ".toList ++ body' ++ _ at same
  exact List.append_cancel_left (List.append_cancel_right same)

theorem scan_typeAlias (name_formed : IsName name) :
    ∃ rest, (typeAlias exported name body).text =
        (typeAlias exported name (beforeTerminator body)).text ++ rest ∧
      scan (dedent (typeAlias exported name body).text) =
        ⟨0, String.ofList (typeAlias exported name (beforeTerminator body)).text,
          .typeAlias (String.ofList name) exported⟩ ::
            scanFrom true ⟨(typeAlias exported name (beforeTerminator body)).text.length, rest⟩ := by
  have formed : (typeAlias exported name (beforeTerminator body)).WellFormed :=
    ⟨name_formed, closesFirst_of_free (beforeTerminator_free body)⟩
  obtain ⟨rest, parts⟩ : ∃ rest, (typeAlias exported name body).text =
      (typeAlias exported name (beforeTerminator body)).text ++ rest := by
    rcases beforeTerminator_cases body with ⟨_, same⟩ | ⟨rest, parts⟩
    · exact ⟨[], by rw [same, List.append_nil]⟩
    · refine ⟨rest ++ ";\n".toList, ?_⟩
      rw [← text_append, ← parts]
  obtain ⟨capture, read, shape⟩ := firstForm?_typeAlias formed rest 0
  refine ⟨rest, parts, ?_⟩
  rw [dedent_typeAlias, parts, scan_eq_scanFrom, Cursor.ofText, scanFrom_block read shape,
    Nat.zero_add]
  rfl

def wholeAlias (name : List Char) : Contents :=
  ⟨[], [⟨.typeAlias, String.ofList name, exported,
    String.ofList (typeAlias exported name body).text⟩], []⟩

theorem result_whole_iff (name_formed : IsName name) :
    (extract (String.ofList (typeAlias exported name body).text)).result =
      .ok (wholeAlias exported body name) ↔ ¬ ";\n".toList <:+: body := by
  obtain ⟨rest, parts, scanned⟩ := scan_typeAlias exported body name_formed
  rw [extract, String.toList_ofList, scanned, Extraction.result_ofDeclarations]
  constructor
  · intro result
    -- the type reported first would be the whole alias, and it is the alias cut short
    cases specs : functionSpecs (Extraction.signatures (_ :: scanFrom true _)) with
    | error e =>
      rw [specs] at result
      cases result
    | ok functions =>
      rw [specs] at result
      have types := congrArg Contents.types (Except.ok.inj result)
      have same : String.ofList (typeAlias exported name (beforeTerminator body)).text =
          String.ofList (typeAlias exported name body).text :=
        congrArg TypeSpec.definition (List.cons.inj types).1
      have uncut : beforeTerminator body = body := text_inj exported (String.ofList_injective same)
      exact uncut ▸ beforeTerminator_free body
  · intro free
    rcases beforeTerminator_cases body with ⟨_, uncut⟩ | ⟨behind, cut⟩
    · rw [uncut] at parts ⊢
      obtain rfl : rest = [] := List.append_right_eq_self.1 parts.symm
      have no_header (text name : String) :
          Extraction.signatures [⟨0, text, .typeAlias name exported⟩] = [] := rfl
      rw [scanFrom_end true rfl, no_header, functionSpecs_nil]
      rfl
    · exact absurd ⟨_, behind, by rw [List.append_assoc, ← cut]⟩ free

end Alias

theorem exists_open {body : List Char} (balanced : openAfter? body = some [])
    (broken : ";\n".toList <:+: body) :
    ∃ b opened, openAfter? (beforeTerminator body) = some (b :: opened) := by
  rcases beforeTerminator_cases body with ⟨free, _⟩ | ⟨rest, parts⟩
  · exact absurd broken free
  · rw [parts, openAfter?, List.foldlM_append] at balanced
    obtain ⟨opened, before, balanced⟩ := Option.bind_eq_some_iff.1 balanced
    cases opened with
    | nil => cases balanced
    | cons b opened => exact ⟨b, opened, before⟩

/-- An alias is the first thing reported of its text, up to the first line that ends in a semicolon.
    It is reported whole if and only if no line within its body does. Where some line does, a body
    that closes its brackets is reported with a bracket left open. -/
theorem typeAlias_whole_iff {name : List Char} (exported : Bool) (body : List Char)
    (name_formed : IsName name) :
    (scan (dedent (typeAlias exported name body).text)).head? =
        some ⟨0, String.ofList (typeAlias exported name (beforeTerminator body)).text,
          .typeAlias (String.ofList name) exported⟩ ∧
      ((extract (String.ofList (typeAlias exported name body).text)).result =
        .ok (wholeAlias exported body name) ↔ ¬ ";\n".toList <:+: body) ∧
      (IsBody body → ";\n".toList <:+: body →
        ∃ b opened, openAfter? (beforeTerminator body) = some (b :: opened)) := by
  refine ⟨?_, result_whole_iff exported body name_formed, fun closed => exists_open closed.balanced⟩
  obtain ⟨rest, _, scanned⟩ := scan_typeAlias exported body name_formed
  rw [scanned, List.head?_cons]

def unionBody : List Char := "\n  | \x7b kind: Left; at: Pos[] \x7d\n  | \x7b kind: Right \x7d".toList

theorem typeAlias_whole_union :
    IsName "Side".toList ∧
      (extract (String.ofList (typeAlias true "Side".toList unionBody).text)).result =
        .ok (wholeAlias true unionBody "Side".toList) := by
  have name_formed : IsName "Side".toList := by decide +kernel
  have free : ¬ ";\n".toList <:+: unionBody := by decide +kernel
  exact ⟨name_formed, (typeAlias_whole_iff true unionBody name_formed).2.1.2 free⟩

def objectBody : List Char := "\x7b\n  a: string;\n\x7d".toList

/-- The alias ends behind its member. -/
theorem typeAlias_cut_at_member :
    ¬ ∀ (exported : Bool) (name body : List Char), IsName name → IsBody body →
      (extract (String.ofList (typeAlias exported name body).text)).result =
        .ok (wholeAlias exported body name) := by
  intro whole
  have name_formed : IsName "A".toList := by decide +kernel
  have formed : IsBody objectBody :=
    ⟨by decide, by decide +kernel, by decide +kernel, by decide +kernel⟩
  have result := whole false "A".toList objectBody name_formed formed
  have free := (result_whole_iff false objectBody name_formed).1 result
  exact free (by decide +kernel)

end SourceSpecs.Block
