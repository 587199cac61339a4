import SourceSpecs.Proofs.Program
import SourceSpecs.Proofs.RoundTrip
/-!
The headers of a source text, read all at once and one by one. Where each closed header has its
brackets balanced and its strings and comments closed, nothing is lost or joined in the text that
they make together: the functions reported are those that the headers define alone.
-/
namespace SourceSpecs.Declaration

open Text Syntax Extraction

def headers (t : List Char) : List Declaration := (scan t).filter (·.kind == .function)

/-- The name in a header: the word behind `export` and `function`. -/
def headerName (d : Declaration) : String :=
  let behindExport := (d.text.toList.drop "export".length).dropWhile isBlank
  String.ofList (((behindExport.drop "function".length).dropWhile isBlank).takeWhile isWord)

/-- Each header, closed, defines one function by itself, which bears the header's name, and these
    are the functions. -/
def StagesAgree (t : List Char) (functions : List FunctionSpec) : Prop :=
  List.Forall₂ (fun d spec => functionSpecs (closeHeader d) = .ok [spec] ∧ spec.name = headerName d)
    (headers t) functions

theorem header_written {t : List Char} {d : Declaration} (member : d ∈ headers t) :
    d.text.toList ∈ Form.function.written := by
  obtain ⟨scanned, function⟩ := List.mem_filter.1 member
  obtain ⟨_, f, kind, written⟩ := ((tiled_scan t).piece d scanned).2.text
  have : f = .function := by
    cases f <;> simp_all [Form.kind]
  exact this ▸ written

theorem header_opens {t : List Char} {d : Declaration} (member : d ∈ headers t) :
    ∃ gap gap' name rest, d.text.toList =
        "export".toList ++ (gap ++ ("function".toList ++ (gap' ++ (name ++ rest)))) ∧
      (gap ≠ [] ∧ ∀ x ∈ gap, isBlank x = true) ∧ (gap' ≠ [] ∧ ∀ x ∈ gap', isBlank x = true) ∧
      (name ≠ [] ∧ ∀ x ∈ name, isWord x = true) ∧ headerName d = String.ofList name := by
  have written := header_written member
  simp only [Form.written, Form.parts, List.prod_cons] at written
  obtain ⟨_, rfl, _, behind, text⟩ := Language.mem_mul.1 written
  obtain ⟨gap, blank, _, named, rfl⟩ := Language.mem_mul.1 behind
  obtain ⟨_, rfl, _, spaced, rfl⟩ := Language.mem_mul.1 named
  obtain ⟨gap', blank', _, called, rfl⟩ := Language.mem_mul.1 spaced
  obtain ⟨name, word, rest, listed, rfl⟩ := Language.mem_mul.1 called
  have outside (L : Language Char) : BeginsOutside isWord (run isBlank * (exactly "(" * L)) :=
    beginsOutside_run_mul (fun x => not_isWord_of_isBlank)
      (beginsOutside_mul (beginsOutside_exactly ⟨'(', rfl, by decide +kernel⟩) L)
  obtain ⟨x, first, no_word⟩ := outside _ rest listed
  refine ⟨gap, gap', name, rest, text.symm, blank, blank', word, ?_⟩
  have past_gap : (gap ++ ("function".toList ++ (gap' ++ (name ++ rest)))).dropWhile isBlank =
      "function".toList ++ (gap' ++ (name ++ rest)) := by
    rw [List.dropWhile_append_of_pos blank.2]
    rfl
  have past_gap' : (gap' ++ (name ++ rest)).dropWhile isBlank = name ++ rest := by
    rw [List.dropWhile_append_of_pos blank'.2]
    cases name with
    | nil => exact absurd rfl word.1
    | cons y name =>
      exact List.dropWhile_cons_of_neg
        (by simp [not_isBlank_of_isWord (word.2 y List.mem_cons_self)])
  have whole_name : (name ++ rest).takeWhile isWord = name := by
    rw [List.takeWhile_append_of_pos word.2]
    cases rest with
    | nil => cases first
    | cons y rest =>
      cases first
      simp [no_word]
  rw [headerName, ← text]
  have dropped (u : List Char) : ("export".toList ++ u).drop "export".length = u := rfl
  have dropped' (u : List Char) : ("function".toList ++ u).drop "function".length = u := rfl
  simp only [dropped, past_gap, dropped', past_gap', whole_name]

theorem trimEnd_append (a v : List Char) (ends : trimEnd a = a) : ∃ u, trimEnd (a ++ v) = a ++ u := by
  unfold trimEnd at ends ⊢
  rw [List.reverse_append, List.dropWhile_append]
  split
  · exact ⟨[], by rw [ends, List.append_nil]⟩
  · exact ⟨_, by rw [List.reverse_append, List.reverse_reverse]⟩

theorem fragment_of_header {t : List Char} {d : Declaration} (member : d ∈ headers t)
    (closed : Sealed (closeHeader d)) : Fragment (closeHeader d) := by
  obtain ⟨gap, gap', name, rest, text, _⟩ := header_opens member
  obtain ⟨u, trimmed⟩ := trimEnd_append "export".toList
    (gap ++ ("function".toList ++ (gap' ++ (name ++ rest)))) (by decide)
  refine ⟨⟨closed, by simp [closeHeader]⟩, u ++ ['\x7d', '\n'], ?_⟩
  rw [closeHeader, text, trimmed, List.append_assoc]

theorem signatures_scan (t : List Char) :
    signatures (scan t) = ((headers t).map closeHeader).flatten := by
  rw [signatures, List.flatMap_def, headers]

/-- The functions of a source text, where each closed header is well formed by itself. -/
theorem functionSpecs_signatures {t : List Char} {specs : List (List FunctionSpec)}
    (balanced : ∀ d ∈ headers t, Sealed (closeHeader d))
    (alone : List.Forall₂ (fun d x => functionSpecs (closeHeader d) = .ok x) (headers t) specs) :
    functionSpecs (signatures (scan t)) = .ok specs.flatten := by
  rw [signatures_scan]
  refine functionSpecs_flatten ?_
  rw [List.forall₂_map_left_iff, List.forall₂_iff_get]
  obtain ⟨length, each⟩ := List.forall₂_iff_get.1 alone
  refine ⟨length, ?_⟩
  intro i bound bound'
  have member := List.get_mem (headers t) ⟨i, bound⟩
  exact ⟨fragment_of_header member (balanced _ member), each i bound bound'⟩

theorem extract_of_functionSpecs {source : String} {functions : List FunctionSpec}
    (specs : functionSpecs (signatures (scan (dedent source.toList))) = .ok functions) :
    ∃ contents, (extract source).result = .ok contents ∧ contents.functions = functions := by
  rw [extract, result_ofDeclarations, specs]
  exact ⟨_, rfl, rfl⟩

/-- The two stages agree, if and only if each closed header defines one function by itself, which
    bears the header's name. -/
theorem stages_agree_iff (source : String)
    (balanced : ∀ d ∈ headers (dedent source.toList), Sealed (closeHeader d)) :
    (∃ contents, (extract source).result = .ok contents ∧
        StagesAgree (dedent source.toList) contents.functions) ↔
      ∀ d ∈ headers (dedent source.toList),
        ∃ spec, functionSpecs (closeHeader d) = .ok [spec] ∧ spec.name = headerName d := by
  rw [← exists_forall₂_iff]
  constructor
  · rintro ⟨contents, _, agree⟩
    exact ⟨contents.functions, agree⟩
  · rintro ⟨specs, agree⟩
    have alone : List.Forall₂ (fun d x => functionSpecs (closeHeader d) = .ok x)
        (headers (dedent source.toList)) (specs.map fun spec => [spec]) := by
      rw [List.forall₂_map_right_iff]
      exact agree.imp fun _ _ one => one.1
    have functions := functionSpecs_signatures balanced alone
    rw [← List.flatMap_def, List.flatMap_singleton'] at functions
    obtain ⟨contents, result, rfl⟩ := extract_of_functionSpecs functions
    exact ⟨contents, result, agree⟩

theorem scan_dedent_render (bs : List Block) {b : Block} (formed : ∀ b ∈ bs, b.WellFormed)
    (member : b ∈ bs) (declares : b.isFiller = false) :
    scan (dedent (String.ofList (Block.render bs)).toList) = Block.declarationsFrom 0 bs := by
  rw [String.toList_ofList, Block.dedent_render member declares, scan_eq_scanFrom]
  exact Block.scanFrom_render formed 0

def twoFunctions : List Block :=
  [.function "load".toList "key: Key".toList (some "Table".toList), .filler "\x7d".toList,
    .function "stop".toList [] none, .filler "\x7d".toList]

theorem stages_agree_twoFunctions :
    let source := String.ofList (Block.render twoFunctions)
    (∀ d ∈ headers (dedent source.toList), Sealed (closeHeader d)) ∧
      ∃ contents, (extract source).result = .ok contents ∧
        StagesAgree (dedent source.toList) contents.functions := by
  intro source
  have scanned := scan_dedent_render twoFunctions (by decide +kernel) List.mem_cons_self rfl
  have found : headers (dedent source.toList) =
      [⟨0, "export function load(key: Key): Table \x7b\n", .function⟩,
        ⟨42, "export function stop() \x7b\n", .function⟩] := by
    rw [headers, scanned]
    decide +kernel
  have balanced : ∀ d ∈ headers (dedent source.toList), Sealed (closeHeader d) := by
    rw [found]
    decide +kernel
  refine ⟨balanced, (stages_agree_iff source balanced).2 ?_⟩
  rw [found, List.forall_mem_cons, List.forall_mem_cons]
  refine ⟨⟨⟨"load", [⟨"key", some "Key", none⟩], "Table", ["Key", "Table"]⟩, ?_⟩,
    ⟨⟨"stop", [], "void", []⟩, ?_⟩, by simp⟩
  · decide +kernel
  · decide +kernel

def longReturnType : List Block :=
  [.function "f".toList [] (some "null |".toList), .filler "  x: string;".toList,
    .filler "\x7d \x7b".toList, .filler "  return null;".toList, .filler "\x7d".toList]

/-- The closed header reads as a signature without a body, so the function is lost. -/
theorem stages_disagree :
    ¬ ∀ (source : String) (contents : Contents), (extract source).result = .ok contents →
      StagesAgree (dedent source.toList) contents.functions := by
  intro agree
  have scanned := scan_dedent_render longReturnType (by decide +kernel) List.mem_cons_self rfl
  have nothing : functionSpecs (signatures (Block.declarationsFrom 0 longReturnType)) = .ok [] := by
    rw [Block.signatures_declarationsFrom]
    decide +kernel
  rw [← scanned] at nothing
  obtain ⟨contents, result, empty⟩ := extract_of_functionSpecs nothing
  have lost := agree _ contents result
  rw [empty, StagesAgree, List.forall₂_nil_right_iff, headers, scanned] at lost
  exact absurd lost (by decide +kernel)

end SourceSpecs.Declaration
