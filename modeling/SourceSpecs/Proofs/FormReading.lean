import SourceSpecs.Proofs.Finding
/-!
What the forms of a declaration read. An interface, a type alias, an import and a require read the
shortest text of their form, a function header the longest.
-/
namespace SourceSpecs.Declaration

open Text

def Form.at? (f : Form) (c : Cursor) : Option (Capture × Cursor) :=
  f.read (fun capture d => some (capture, d)) c

def readNamed (keyword opener closer : String)
    (capture : Span → Option Span → Span → Capture) {α : Type} (k : Next α) (c : Cursor) :
    Option α := do
  let start := c.offset
  let (exported, c) := exportMark c
  let (name, c) ← namedAfter keyword c
  let c ← word opener (c.skip isBlank)
  c.firstAlong (fun _ => true) fun c => do
    let c ← word closer c
    k (capture ⟨start, c.offset⟩ exported name) c

theorem readInterface_eq {α : Type} (k : Next α) :
    readInterface k = readNamed "interface" "\x7b" "\n\x7d\n" .interface k := rfl

theorem readTypeAlias_eq {α : Type} (k : Next α) :
    readTypeAlias k = readNamed "type" "=" ";\n" .typeAlias k := rfl

def readSource (marker : String) (closing : Cursor → Option Cursor)
    (capture : Span → Span → Capture) {α : Type} (k : Next α) (start : Nat) (c : Cursor) :
    Option α := do
  let c ← word marker c
  let (_, path) ← (c.skip isBlank).next? isQuote
  path.firstAlong isInLine fun stop => do
    let (_, c) ← stop.next? isQuote
    let c ← closing c
    k (capture ⟨start, c.offset⟩ ⟨path.offset, stop.offset⟩) c

def callEnd (c : Cursor) : Option Cursor := (word ")" (c.skip isBlank)).bind lineEnd

theorem readImport_eq {α : Type} (k : Next α) (c : Cursor) :
    readImport k c = (word "import" c).bind fun d => (d.skipSome? isBlank).bind fun d =>
      d.firstAlong (fun _ => true) (readSource "from" lineEnd .importFrom k c.offset) := rfl

theorem readRequire_eq {α : Type} (k : Next α) (c : Cursor) :
    readRequire k c = (word "const" c).bind fun d =>
      d.firstAlong (fun _ => true) (readSource "require(" callEnd .require k c.offset) := by
  have source : readSource "require(" callEnd .require k c.offset = fun d =>
      (word "require(" d).bind fun d => ((d.skip isBlank).next? isQuote).bind fun path =>
        path.2.firstAlong isInLine fun stop => (stop.next? isQuote).bind fun d =>
          (word ")" (d.2.skip isBlank)).bind fun d => (lineEnd d).bind fun d =>
            k (.require ⟨c.offset, d.offset⟩ ⟨path.2.offset, stop.offset⟩) d := by
    funext d
    simp only [readSource, callEnd, Option.bind_eq_bind, Option.bind_assoc]
  rw [source]
  rfl

def headerEnd (c : Cursor) : Option Cursor :=
  match word ":" (c.skip isBlank) with
  | some c => returnType c
  | none => openingBrace c

theorem readFunction_eq {α : Type} (k : Next α) (c : Cursor) :
    readFunction k c = (word "export" c).bind fun d => (d.skipSome? isBlank).bind fun d =>
      (namedAfter "function" d).bind fun r => (word "(" (r.2.skip isBlank)).bind fun d =>
        (word ")" (d.skip (· != ')'))).bind fun d => (headerEnd d).bind fun d =>
          k (.function ⟨c.offset, d.offset⟩) d := by
  simp only [readFunction, headerEnd, Option.bind_eq_bind]
  congr; funext d; congr; funext d; congr; funext r; congr; funext d; congr; funext d
  cases word ":" (d.skip isBlank) <;> rfl

theorem firstAlong_map {α β : Type} (p : Char → Bool) (r : Cursor → Option α) (g : α → β)
    (c : Cursor) : c.firstAlong p (fun d => (r d).map g) = (c.firstAlong p r).map g := by
  obtain ⟨offset, rest⟩ := c
  induction rest generalizing offset with
  | nil => rfl
  | cons x rest ih =>
    rw [Cursor.firstAlong_cons, Cursor.firstAlong_cons, ih]
    cases r ⟨offset, x :: rest⟩ <;> by_cases px : p x = true <;> simp [px]

theorem Form.read_some {α : Type} (f : Form) (g : Capture → Cursor → α) (c : Cursor) :
    f.read (fun capture d => some (g capture d)) c = (f.at? c).map fun r => g r.1 r.2 := by
  cases f with
  | function =>
    simp only [at?, read, readFunction_eq, Option.map_bind, Function.comp_def, Option.map_some]
  | interface =>
    simp only [at?, read, readInterface, Option.bind_eq_bind, Option.map_bind, Function.comp_def,
      ← firstAlong_map, Option.map_some]
  | typeAlias =>
    simp only [at?, read, readTypeAlias, Option.bind_eq_bind, Option.map_bind, Function.comp_def,
      ← firstAlong_map, Option.map_some]
  | importFrom =>
    simp only [at?, read, readImport, Option.bind_eq_bind, Option.map_bind, Function.comp_def,
      ← firstAlong_map, Option.map_some]
  | require =>
    simp only [at?, read, readRequire, Option.bind_eq_bind, Option.map_bind, Function.comp_def,
      ← firstAlong_map, Option.map_some]

variable {β : Type} {better : Nat → Nat → Prop} {stop : β → Cursor} {L : Language Char}

theorem takes_maybe_mul_iff {M : Language Char} {c d : Cursor} :
    Takes (maybe L * M) c d ↔ Takes M c d ∨ Takes (L * M) c d := by
  simp only [takes_mul_iff, takes_maybe_iff, or_and_right, exists_or, exists_eq_left]

theorem takes_lineEnd_iff {c d : Cursor} :
    Takes (maybe (exactly ";") * exactly "\n") c d ↔ lineEnd c = some d := by
  rw [takes_maybe_mul_iff, takes_exactly_mul_iff, takes_exactly_iff]
  simp only [lineEnd, takes_exactly_iff]
  cases semicolon : word ";" c with
  | none => simp
  | some e =>
    have first := (Cursor.past?_eq_some_iff.1 semicolon).1
    have not_break : ¬ word "\n" c = some d := by
      intro read
      have := (Cursor.past?_eq_some_iff.1 read).1
      simp [first] at this
    simp [not_break]

theorem takes_callEnd_iff {c d : Cursor} :
    Takes (run isBlank * (exactly ")" * (maybe (exactly ";") * exactly "\n"))) c d ↔
      callEnd c = some d := by
  have outside : BeginsOutside isBlank (exactly ")") := beginsOutside_exactly ⟨')', rfl, rfl⟩
  simp only [takes_run_mul_iff (beginsOutside_mul outside _), takes_exactly_mul_iff,
    takes_lineEnd_iff, callEnd, Option.bind_eq_some_iff]

theorem finds_namedAfter (keyword : String) (outside : BeginsOutside isWord L)
    {r : Span → Cursor → Option β} (h : ∀ s, Finds better stop (r s) L) :
    Finds better stop (fun c => (namedAfter keyword c).bind fun x => r x.1 x.2)
      (exactly keyword * (runSome isBlank * (runSome isWord * L))) := by
  have name_outside : BeginsOutside isBlank (runSome isWord * L) :=
    beginsOutside_mul (beginsOutside_runSome fun _ => not_isBlank_of_isWord) L
  have named (s : Cursor) : Finds better stop (fun c => (c.skipSome? isWord).bind fun e =>
      r ⟨s.offset, e.offset⟩ e) (runSome isWord * L) :=
    finds_runSome_mul outside (finds_from fun e => h ⟨s.offset, e.offset⟩)
  have all := finds_exactly_mul keyword (finds_runSome_mul name_outside (finds_from named))
  simpa only [namedAfter, Option.bind_eq_bind, Option.bind_assoc, Option.pure_def,
    Option.bind_some] using all

theorem finds_exportMark (not_mark : BeginsOutside (· == 'e') L)
    (not_blank : BeginsOutside isBlank L) {r : Option Span → Cursor → Option β}
    (h : ∀ s, Finds better stop (r s) L) :
    Finds better stop (fun c => r (exportMark c).1 (exportMark c).2)
      (maybe (exactly "export" * runSome isBlank) * L) := by
  have takes_iff {c d : Cursor} : Takes (maybe (exactly "export" * runSome isBlank) * L) c d ↔
      Takes L (exportMark c).2 d := by
    rw [takes_maybe_mul_iff, mul_assoc, takes_exactly_mul_iff]
    simp only [takes_runSome_mul_iff not_blank, exportMark]
    cases mark : word "export" c with
    | none => simp
    | some e =>
      have first := (Cursor.past?_eq_some_iff.1 mark).1
      have not_plain : ¬ Takes L c d := by
        intro takes
        have := head_rest_of_takes not_mark takes 'e' (by rw [first]; rfl)
        simp at this
      cases gap : e.skipSome? isBlank <;> simp [not_plain, gap]
  constructor
  · intro c b found
    simp only [Best, takes_iff]
    exact (h _).best found
  · intro c d takes
    exact (h _).found (takes_iff.1 takes)

theorem run_mul_anything (p : Char → Bool) : run p * anything = anything := by
  ext w
  simp only [Language.mem_mul]
  constructor
  · rintro ⟨u, _, v, _, rfl⟩ x _
    rfl
  · intro _
    exact ⟨[], fun _ member => absurd member List.not_mem_nil, w, fun _ _ => rfl, rfl⟩

theorem finds_closer (closer : String) (f : Cursor → Capture) :
    Finds (· ≤ ·) Prod.snd (fun c => c.firstAlong (fun _ => true) fun d =>
      (word closer d).bind fun d => some (f d, d)) (anything * exactly closer) := by
  refine finds_firstAlong
    (finds_some _ (fun _ => rfl) (finds_of_iff Nat.le_refl takes_exactly_iff)) ?_
  intro c e d x u best between _ _ takes
  have first := (Cursor.past?_eq_some_iff.1 (takes_exactly_iff.1 best.1)).2
  have second := (Cursor.past?_eq_some_iff.1 (takes_exactly_iff.1 takes)).2
  have := between.2
  omega

theorem finds_readNamed (keyword opener closer : String)
    (capture : Span → Option Span → Span → Capture)
    (keyword_outside : ∃ x ∈ keyword.toList.head?, (x == 'e') = false ∧ isBlank x = false)
    (opener_outside : ∃ x ∈ opener.toList.head?, isBlank x = false ∧ isWord x = false) :
    Finds (· ≤ ·) Prod.snd (readNamed keyword opener closer capture fun x d => some (x, d))
      (maybe (exactly "export" * runSome isBlank) * (exactly keyword * (runSome isBlank *
        (runSome isWord * (run isBlank * (exactly opener * (anything * exactly closer))))))) := by
  obtain ⟨x, first, not_e, x_blank⟩ := keyword_outside
  obtain ⟨y, first', y_blank, y_word⟩ := opener_outside
  have body (start : Nat) (exported : Option Span) (name : Span) :=
    finds_exactly_mul opener (finds_closer closer fun d => capture ⟨start, d.offset⟩ exported name)
  have opening := beginsOutside_mul (beginsOutside_exactly ⟨y, first', y_blank⟩)
    (anything * exactly closer)
  have opening' := beginsOutside_mul (beginsOutside_exactly ⟨y, first', y_word⟩)
    (anything * exactly closer)
  have afterName := beginsOutside_run_mul (q := isBlank) (fun x => not_isWord_of_isBlank) opening'
  have named (start : Nat) (exported : Option Span) :=
    finds_namedAfter keyword afterName fun name =>
      finds_run_mul opening (body start exported name)
  have marked (start : Nat) :=
    finds_exportMark (beginsOutside_mul (beginsOutside_exactly ⟨x, first, not_e⟩) _)
      (beginsOutside_mul (beginsOutside_exactly ⟨x, first, x_blank⟩) _) (named start)
  have all := finds_from fun c => marked c.offset
  exact all

theorem finds_interface : Finds (· ≤ ·) Prod.snd Form.interface.at? Form.interface.written := by
  simp only [Form.written, Form.parts, List.prod_cons, List.prod_nil, mul_one]
  exact finds_readNamed "interface" "\x7b" "\n\x7d\n" .interface ⟨'i', rfl, by decide, by decide⟩
    ⟨'\x7b', rfl, by decide +kernel, by decide +kernel⟩

theorem finds_typeAlias : Finds (· ≤ ·) Prod.snd Form.typeAlias.at? Form.typeAlias.written := by
  have absorbed := run_mul_anything isBlank
  simp only [Form.written, Form.parts, List.prod_cons, List.prod_nil, mul_one]
  rw [← mul_assoc (run isBlank) anything, absorbed]
  exact finds_readNamed "type" "=" ";\n" .typeAlias ⟨'t', rfl, by decide, by decide⟩
    ⟨'=', rfl, by decide +kernel, by decide +kernel⟩

end SourceSpecs.Declaration
