import SourceSpecs.Proofs.HeaderBlock
import SourceSpecs.Proofs.Indent
/-!
A scan undoes the layout of a source as blocks: it reports each block as the declaration it is, and
nothing for the filler lines between them.
-/
namespace SourceSpecs.Block

open Text Declaration

def keyword : Form → String
  | .function => "function"
  | .interface => "interface"
  | .typeAlias => "type"
  | .importFrom => "import"
  | .require => "const"

theorem keywords_apart {f g : Form} (differ : f ≠ g) (t : List Char) :
    ¬ (keyword f).toList <+: (keyword g).toList ++ t := by
  have apart : ¬ (keyword f).toList <+: (keyword g).toList ∧
      ¬ (keyword g).toList <+: (keyword f).toList := by
    revert differ
    cases f <;> cases g <;> decide
  intro h
  rcases List.prefix_or_prefix_of_prefix h ⟨t, rfl⟩ with h | h
  · exact apart.1 h
  · exact apart.2 h

theorem firstForm?_of_only {c : Cursor} {g : Form} (others : ∀ f ≠ g, f.at? c = none) :
    firstForm? c = g.at? c := by
  have found : ∀ f, f = g ∨ f.at? c = none := fun f => (Decidable.em (f = g)).imp_right (others f)
  simp only [firstForm?, Form.all, List.findSome?_cons, List.findSome?_nil]
  cases g <;> simp [others] <;> cases Form.at? _ c <;> rfl

section Keyword

variable {t : List Char} (o : Nat)

theorem namedAfter_eq_none {w : String} (other : ¬ w.toList <+: t) : namedAfter w ⟨o, t⟩ = none := by
  simp only [namedAfter, word_eq_none other, Option.bind_eq_bind, Option.bind_none]

/-- Behind `export` or not, a form needs its keyword. -/
theorem at?_of_other_keyword {f : Form} (exported : Bool)
    (first : ∃ x ∈ t.head?, x ≠ 'e' ∧ isBlank x = false) (other : ¬ (keyword f).toList <+: t) :
    f.at? ⟨o, given exported "export " ++ t⟩ = none := by
  obtain ⟨span, _, mark⟩ := exportMark_given o exported first
  obtain ⟨x, first, not_e, not_blank⟩ := first
  have unnamed (n : Nat) : namedAfter (keyword f) ⟨n, t⟩ = none := namedAfter_eq_none n other
  have unopened (c : Char) (w : List Char) (h : (keyword f).toList = c :: w) (not_mark : c ≠ 'e') :
      word (keyword f) ⟨o, given exported "export " ++ t⟩ = none := by
    cases exported with
    | false => exact word_eq_none other
    | true =>
      refine word_eq_none ?_
      rw [h]
      rintro ⟨v, e⟩
      exact not_mark (List.cons.inj e).1
  cases f with
  | function =>
    have unread : (word "export" ⟨o, given exported "export " ++ t⟩).bind (Cursor.skipSome? isBlank) =
        none ∨ (word "export" ⟨o, given exported "export " ++ t⟩).bind (Cursor.skipSome? isBlank) =
          some ⟨o + 7, t⟩ := by
      cases exported with
      | false =>
        refine Or.inl (Option.bind_eq_none_iff.2 fun d read => ?_)
        have parts : t = "export".toList ++ d.rest := (Cursor.past?_eq_some_iff.1 read).1
        rw [parts] at first
        exact absurd (Option.some.inj first).symm not_e
      | true =>
        refine Or.inr ?_
        have marked : word "export" ⟨o, given true "export " ++ t⟩ = some ⟨o + 6, [' '] ++ t⟩ :=
          word_append "export" o ([' '] ++ t)
        rw [marked, Option.bind_some, space_append (o + 6) fun y member => ?_]
        obtain rfl : x = y := Option.some.inj (first.symm.trans member)
        exact not_blank
    rw [Form.at?, Form.read, readFunction_eq, ← Option.bind_assoc]
    rcases unread with unread | unread <;>
      simp only [unread, Option.bind_none, Option.bind_some]
    rw [show namedAfter "function" ⟨o + 7, t⟩ = none from unnamed (o + 7), Option.bind_none]
  | interface =>
    simp only [Form.at?, Form.read, readInterface_eq, readNamed, mark, Option.bind_eq_bind,
      show namedAfter "interface" _ = none from unnamed _, Option.bind_none]
  | typeAlias =>
    simp only [Form.at?, Form.read, readTypeAlias_eq, readNamed, mark, Option.bind_eq_bind,
      show namedAfter "type" _ = none from unnamed _, Option.bind_none]
  | importFrom =>
    have unread := unopened 'i' "mport".toList rfl (by decide)
    simp only [keyword] at unread
    simp only [Form.at?, Form.read, readImport_eq, unread, Option.bind_none]
  | require =>
    have unread := unopened 'c' "onst".toList rfl (by decide)
    simp only [keyword] at unread
    simp only [Form.at?, Form.read, readRequire_eq, unread, Option.bind_none]

theorem at?_of_no_opening {f : Form} (none_opens : ∀ w ∈ openingWords, ¬ w.toList <+: t) :
    f.at? ⟨o, t⟩ = none := by
  have unread (w : String) (h : w ∈ openingWords) : word w ⟨o, t⟩ = none :=
    word_eq_none (none_opens w h)
  have unmarked : exportMark ⟨o, t⟩ = (none, ⟨o, t⟩) := by
    simp only [exportMark, unread "export" (by decide), Option.bind_none]
  have unnamed (w : String) (h : w ∈ openingWords) : namedAfter w ⟨o, t⟩ = none :=
    namedAfter_eq_none o (none_opens w h)
  cases f with
  | function => simp [Form.at?, Form.read, readFunction, unread "export" (by decide)]
  | interface =>
    simp [Form.at?, Form.read, readInterface, unmarked, unnamed "interface" (by decide)]
  | typeAlias => simp [Form.at?, Form.read, readTypeAlias, unmarked, unnamed "type" (by decide)]
  | importFrom => simp [Form.at?, Form.read, readImport, unread "import" (by decide)]
  | require => simp [Form.at?, Form.read, readRequire, unread "const" (by decide)]

end Keyword

/-- A block that opens with the keyword of the form that reads it is read by no form before that. -/
theorem firstForm?_of_readBy {b : Block} {g : Form} {t rest : List Char} (exported : Bool)
    (layout : b.text ++ rest = given exported "export " ++ ((keyword g).toList ++ t))
    (read : ReadBy g b rest) (o : Nat) :
    ∃ capture, firstForm? ⟨o, b.text ++ rest⟩ = some (capture, ⟨o + b.text.length, rest⟩) ∧
      ∀ m : Match, m.start = o → m.text = b.text → b.shape? = some (shapeOf m capture) := by
  have first : ∃ x ∈ ((keyword g).toList ++ t).head?, x ≠ 'e' ∧ isBlank x = false := by
    cases g
    · exact ⟨'f', rfl, by decide, by decide⟩
    · exact ⟨'i', rfl, by decide, by decide⟩
    · exact ⟨'t', rfl, by decide, by decide⟩
    · exact ⟨'i', rfl, by decide, by decide⟩
    · exact ⟨'c', rfl, by decide, by decide⟩
  have others : ∀ f ≠ g, f.at? ⟨o, b.text ++ rest⟩ = none := by
    intro f differ
    rw [layout]
    exact at?_of_other_keyword o exported first (keywords_apart differ t)
  rw [firstForm?_of_only others]
  exact read o

theorem firstForm?_typeAlias {exported : Bool} {name body : List Char}
    (formed : (typeAlias exported name body).WellFormed) (rest : List Char) (o : Nat) :
    let b := typeAlias exported name body
    ∃ capture, firstForm? ⟨o, b.text ++ rest⟩ = some (capture, ⟨o + b.text.length, rest⟩) ∧
      ∀ m : Match, m.start = o → m.text = b.text → b.shape? = some (shapeOf m capture) := by
  refine firstForm?_of_readBy (t := ' ' :: name ++ " = ".toList ++ body ++ ";\n".toList ++ rest)
    exported ?_ (typeAlias_readBy formed rest) o
  change given exported "export " ++ ("type".toList ++ [' ']) ++ name ++ _ ++ body ++ _ ++ rest = _
  simp [keyword]

/-- A block is what the first form reads at its place, whatever stands behind it. -/
theorem firstForm?_block {b : Block} (formed : b.WellFormed) (declares : b.isFiller = false)
    {rest : List Char} (free : NoBraceNext rest) (o : Nat) :
    ∃ capture, firstForm? ⟨o, b.text ++ rest⟩ = some (capture, ⟨o + b.text.length, rest⟩) ∧
      ∀ m : Match, m.start = o → m.text = b.text → b.shape? = some (shapeOf m capture) := by
  cases b with
  | function name params returns =>
    refine firstForm?_of_readBy (t := ' ' :: name ++ '(' :: params ++ ')' :: returnPart returns ++
      " \x7b\n".toList ++ rest) true ?_ (function_readBy formed free) o
    change "export ".toList ++ ("function".toList ++ [' ']) ++ name ++ '(' :: params ++
      ')' :: returnPart returns ++ _ ++ rest = given true "export " ++ _
    simp [given, keyword]
  | interface exported name body =>
    refine firstForm?_of_readBy (t := ' ' :: name ++ " \x7b".toList ++ body ++ "\n\x7d\n".toList ++
      rest) exported ?_ (interface_readBy formed rest) o
    change given exported "export " ++ ("interface".toList ++ [' ']) ++ name ++ _ ++ body ++ _ ++
      rest = _
    simp [keyword]
  | typeAlias => exact firstForm?_typeAlias formed rest o
  | importFrom clause q path semicolon =>
    refine firstForm?_of_readBy (t := ' ' :: clause ++ " from ".toList ++ q :: path ++
      q :: given semicolon ";" ++ ['\n'] ++ rest) false ?_ (importFrom_readBy formed rest) o
    change ("import".toList ++ [' ']) ++ clause ++ _ ++ q :: path ++ _ ++ _ ++ rest = _
    simp [given, keyword]
  | require clause q path semicolon =>
    refine firstForm?_of_readBy (t := ' ' :: clause ++ " = require(".toList ++ q :: path ++
      q :: ')' :: given semicolon ";" ++ ['\n'] ++ rest) false ?_ (require_readBy formed rest) o
    change ("const".toList ++ [' ']) ++ clause ++ _ ++ q :: path ++ _ ++ _ ++ rest = _
    simp [given, keyword]
  | filler line => simp [isFiller] at declares

theorem not_opening_of_line {line rest : List Char} (unopened : ∀ w ∈ openingWords, ¬ w.toList <+: line) :
    ∀ w ∈ openingWords, ¬ w.toList <+: line ++ '\n' :: rest := by
  have in_line : ∀ w ∈ openingWords, '\n' ∉ w.toList := by decide
  intro w member h
  have line_here : line ++ ['\n'] <+: line ++ '\n' :: rest := ⟨rest, by simp⟩
  rcases List.prefix_or_prefix_of_prefix h line_here with shorter | longer
  · rcases List.prefix_concat_iff.1 shorter with same | within
    · exact in_line w member (by simp [same])
    · exact unopened w member within
  · exact in_line w member (longer.subset (by simp))

theorem scanFrom_line {line rest : List Char} (lineStart : Bool) (o : Nat)
    (plain : ∀ x ∈ line, x ≠ '\n')
    (free : lineStart = true → firstForm? ⟨o, line ++ '\n' :: rest⟩ = none) :
    scanFrom lineStart ⟨o, line ++ '\n' :: rest⟩ = scanFrom true ⟨o + line.length + 1, rest⟩ := by
  induction line generalizing o lineStart with
  | nil => exact scanFrom_pass free rfl
  | cons x line ih =>
    have in_line : (x == '\n') = false := by simpa using plain x List.mem_cons_self
    rw [scanFrom_pass free (List.cons_append ..), in_line,
      ih false (o + 1) (fun y member => plain y (List.mem_cons_of_mem x member)) (by simp),
      List.length_cons, show o + 1 + line.length = o + (line.length + 1) by omega]

theorem text_begins {b : Block} (declares : b.isFiller = false) :
    ∃ x t, b.text = x :: t ∧ isBlank x = false ∧ x ≠ '\x7b' := by
  cases b with
  | function => exact ⟨'e', _, rfl, by decide, by decide⟩
  | interface exported =>
    cases exported
    · exact ⟨'i', _, rfl, by decide, by decide⟩
    · exact ⟨'e', _, rfl, by decide, by decide⟩
  | typeAlias exported =>
    cases exported
    · exact ⟨'t', _, rfl, by decide, by decide⟩
    · exact ⟨'e', _, rfl, by decide, by decide⟩
  | importFrom => exact ⟨'i', _, rfl, by decide, by decide⟩
  | require => exact ⟨'c', _, rfl, by decide, by decide⟩
  | filler => simp [isFiller] at declares

theorem filler_of_isFiller {b : Block} (h : b.isFiller = true) : ∃ line, b = filler line := by
  cases b with
  | filler line => exact ⟨line, rfl⟩
  | _ => simp [isFiller] at h

theorem noBraceNext_render {bs : List Block} (formed : ∀ b ∈ bs, b.WellFormed) :
    NoBraceNext (render bs) := by
  induction bs with
  | nil => simp [NoBraceNext, render]
  | cons b bs ih =>
    cases declares : b.isFiller with
    | false =>
      obtain ⟨x, t, layout, not_blank, not_brace⟩ := text_begins declares
      rw [NoBraceNext, render, List.flatMap_cons, layout, List.cons_append,
        List.dropWhile_cons_of_neg (by simp [not_blank]), List.head?_cons]
      exact fun same => not_brace (Option.some.inj same)
    | true =>
      obtain ⟨line, rfl⟩ := filler_of_isFiller declares
      have free : (line.dropWhile isBlank).head? ≠ some '\x7b' :=
        (formed (.filler line) List.mem_cons_self).2.2
      have behind := ih fun c member => formed c (List.mem_cons_of_mem _ member)
      have layout : render (filler line :: bs) = line ++ '\n' :: render bs := by
        change (line ++ ['\n']) ++ render bs = _
        simp
      rw [NoBraceNext, layout, List.dropWhile_append]
      cases left : line.dropWhile isBlank with
      | nil =>
        rw [List.isEmpty_nil, if_pos rfl, List.dropWhile_cons_of_pos (by decide)]
        exact behind
      | cons x left' =>
        rw [List.isEmpty_cons, if_neg (by simp), List.cons_append, List.head?_cons]
        simpa [left] using free

/-- A block that the first form reads is reported, and the scan goes on behind it. -/
theorem scanFrom_block {b : Block} {rest : List Char} {capture : Capture} {o : Nat}
    (read : firstForm? ⟨o, b.text ++ rest⟩ = some (capture, ⟨o + b.text.length, rest⟩))
    (shape : ∀ m : Match, m.start = o → m.text = b.text → b.shape? = some (shapeOf m capture)) :
    scanFrom true ⟨o, b.text ++ rest⟩ =
      (b.declarationAt? o).toList ++ scanFrom true ⟨o + b.text.length, rest⟩ := by
  have text := between_text (c := ⟨o, b.text ++ rest⟩) (Cursor.reads_of_rest rfl) capture
  rw [scanFrom_found read, declarationAt?, shape ⟨o, b.text, [capture]⟩ rfl rfl]
  simp [between]

/-- A scan undoes the layout: it reports the blocks, each at its place. -/
theorem scanFrom_render {bs : List Block} (formed : ∀ b ∈ bs, b.WellFormed) (o : Nat) :
    scanFrom true ⟨o, render bs⟩ = declarationsFrom o bs := by
  induction bs generalizing o with
  | nil => exact scanFrom_end true rfl
  | cons b bs ih =>
    have here := formed b List.mem_cons_self
    have rest_formed : ∀ c ∈ bs, c.WellFormed := fun c member =>
      formed c (List.mem_cons_of_mem b member)
    have next := ih rest_formed (o + b.text.length)
    rw [declarationsFrom, ← next, show render (b :: bs) = b.text ++ render bs from rfl]
    cases declares : b.isFiller with
    | false =>
      obtain ⟨capture, read, shape⟩ :=
        firstForm?_block here declares (noBraceNext_render rest_formed) o
      exact scanFrom_block read shape
    | true =>
      obtain ⟨line, rfl⟩ := filler_of_isFiller declares
      obtain ⟨plain, unopened, _⟩ := here
      have layout : (filler line).text = line ++ ['\n'] := rfl
      have none_here : firstForm? ⟨o, line ++ '\n' :: render bs⟩ = none := by
        rw [firstForm?, List.findSome?_eq_none_iff]
        exact fun f _ => at?_of_no_opening o (not_opening_of_line unopened)
      have passed := scanFrom_line true o plain fun _ => none_here
      rw [layout, List.append_assoc, List.singleton_append, passed, List.length_append,
        List.length_singleton, Nat.add_assoc]
      rfl

theorem text_ends_line (b : Block) : b.text.getLast? = some '\n' := by
  have ends {u v : List Char} (h : v.getLast? = some '\n') : (u ++ v).getLast? = some '\n' := by
    rw [List.getLast?_append, h, Option.some_or]
  cases b with
  | function => exact ends rfl
  | interface => exact ends rfl
  | typeAlias => exact ends rfl
  | importFrom => exact ends rfl
  | require => exact ends rfl
  | filler => exact ends rfl

theorem render_ends_line {bs : List Block} :
    render bs = [] ∨ (render bs).getLast? = some '\n' := by
  rcases List.eq_nil_or_concat bs with rfl | ⟨bs, b, rfl⟩
  · exact Or.inl rfl
  · rw [render, List.concat_eq_append, List.flatMap_append, List.flatMap_singleton,
      List.getLast?_append, text_ends_line, Option.some_or]
    exact Or.inr rfl

theorem dedent_render {bs : List Block} {b : Block} (member : b ∈ bs)
    (declares : b.isFiller = false) : dedent (render bs) = render bs := by
  obtain ⟨before, behind, rfl⟩ := List.append_of_mem member
  obtain ⟨x, t, first, not_blank, _⟩ := text_begins declares
  refine dedent_eq_self (u := render before) (v := t ++ render behind) ?_ render_ends_line not_blank
  simp only [render, List.flatMap_append, List.flatMap_cons, first, List.cons_append]

section Extraction

variable (o : Nat) (bs : List Block)

theorem functionSpecs_nil : functionSpecs [] = .ok [] := by decide +kernel

theorem filterMap_declarationsFrom {α : Type} {f : Declaration → Option α} {g : Block → Option α}
    (same : ∀ n b, (declarationAt? n b).bind f = g b) :
    (declarationsFrom o bs).filterMap f = bs.filterMap g := by
  induction bs generalizing o with
  | nil => rfl
  | cons b bs ih =>
    rw [declarationsFrom, List.filterMap_append, ih, List.filterMap_cons, ← same o b]
    cases declarationAt? o b with
    | none => rfl
    | some d => cases e : f d <;> simp [e]

theorem closeHeader_function (name params : List Char) (returns : Option (List Char)) :
    let b := function name params returns
    Extraction.closeHeader ⟨o, String.ofList b.text, .function⟩ = b.closedHeader := by
  intro b
  set front := "export function ".toList ++ name ++ '(' :: params ++ ')' :: returnPart returns
  have text : b.text = front ++ [' ', '\x7b'] ++ ['\n'] := by
    change front ++ ([' ', '\x7b'] ++ ['\n']) = _
    exact (List.append_assoc front _ _).symm
  have trimmed : trimEnd (front ++ [' ', '\x7b'] ++ ['\n']) = front ++ [' ', '\x7b'] := by
    simp only [trimEnd, List.reverse_append, List.reverse_cons, List.reverse_nil, List.nil_append,
      List.cons_append, List.append_assoc]
    rw [List.dropWhile_cons_of_pos (by decide), List.dropWhile_cons_of_neg (by decide)]
    simp
  rw [Extraction.closeHeader, String.toList_ofList, text, trimmed, List.append_assoc]
  rfl

theorem signatures_declarationsFrom :
    Extraction.signatures (declarationsFrom o bs) = bs.flatMap closedHeader := by
  induction bs generalizing o with
  | nil => rfl
  | cons b bs ih =>
    have here : Extraction.signatures (declarationAt? o b).toList = b.closedHeader := by
      cases b with
      | function name params returns =>
        have := closeHeader_function o name params returns
        simpa [Extraction.signatures, declarationAt?, shape?, Declaration.kind, Shape.kind] using this
      | _ => rfl
    rw [declarationsFrom, List.flatMap_cons, ← ih (o + b.text.length), ← here]
    simp only [Extraction.signatures, List.filter_append, List.flatMap_append]

theorem extract_declarationsFrom :
    (Extraction.ofDeclarations (declarationsFrom o bs)).result =
      (functionSpecs (bs.flatMap closedHeader)).map fun functions =>
        ⟨functions, bs.filterMap typeSpec?, bs.filterMap importSpec?⟩ := by
  have types := filterMap_declarationsFrom (f := Extraction.typeSpec?) (g := typeSpec?) o bs
    fun n b => by cases b <;> rfl
  have imports := filterMap_declarationsFrom (f := Extraction.importSpec?) (g := importSpec?) o bs
    fun n b => by cases b <;> rfl
  rw [Extraction.result_ofDeclarations, signatures_declarationsFrom, types, imports]

end Extraction

/-- Scanning the text of a list of blocks gives back the blocks: each as the one declaration it is,
    and nothing for the fillers. The specs of such a source are those of its blocks. -/
theorem scan_undoes_render (bs : List Block) (formed : ∀ b ∈ bs, b.WellFormed) :
    scan (render bs) = declarationsFrom 0 bs ∧
    ((∃ b ∈ bs, b.isFiller = false) →
      (extract (String.ofList (render bs))).result =
        (functionSpecs (bs.flatMap closedHeader)).map fun functions =>
          ⟨functions, bs.filterMap typeSpec?, bs.filterMap importSpec?⟩) := by
  have scanned : scan (render bs) = declarationsFrom 0 bs := by
    rw [scan_eq_scanFrom]
    exact scanFrom_render formed 0
  refine ⟨scanned, ?_⟩
  rintro ⟨b, member, declares⟩
  rw [extract, String.toList_ofList, dedent_render member declares, scanned,
    extract_declarationsFrom]

def sampleModule : List Block :=
  [.importFrom "\x7b Row \x7d".toList '"' "./row".toList true, .filler [],
    .interface true "Table".toList "\n  rows: Row[];".toList,
    .typeAlias false "Key".toList "string | number".toList, .filler "// loading".toList,
    .function "load".toList "key: Key".toList (some "Table".toList),
    .filler "  return read(key);".toList, .filler "\x7d".toList,
    .require "read".toList '\'' "./read".toList false]

theorem scan_sampleModule :
    (∀ b ∈ sampleModule, b.WellFormed) ∧ (∃ b ∈ sampleModule, b.isFiller = false) ∧
      scan (render sampleModule) = declarationsFrom 0 sampleModule ∧
        (extract (String.ofList (render sampleModule))).result =
          (functionSpecs (sampleModule.flatMap closedHeader)).map fun functions =>
            ⟨functions, sampleModule.filterMap typeSpec?, sampleModule.filterMap importSpec?⟩ := by
  have formed : ∀ b ∈ sampleModule, b.WellFormed := by decide +kernel
  have declares : ∃ b ∈ sampleModule, b.isFiller = false := by decide
  have undone := scan_undoes_render sampleModule formed
  exact ⟨formed, declares, undone.1, undone.2 declares⟩

end SourceSpecs.Block
