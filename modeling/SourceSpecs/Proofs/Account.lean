import SourceSpecs.Proofs.BatchedHeaders
/-!
What a run over a source text leaves behind: its record, and the specs or the refusal that it ends
in. Both are accounts of the scan. The record names the declarations in their order and then how the
run ended, and types and imports are the declarations of their kinds, each with its text.
-/
namespace SourceSpecs.Extraction

open Text Declaration

def written (run : Extraction) : List (Event.Level × String) :=
  run.log.map fun e => (e.level, e.message)

def scanEntries (ds : List Declaration) : List (Event.Level × String) :=
  ds.map fun d =>
    (.debug, "Scanned " ++ d.kind.label ++ " declaration at offset " ++ toString d.offset)

def isType (d : Declaration) : Bool := d.kind == .typeAlias || d.kind == .interface

def isImport (d : Declaration) : Bool := d.kind == .importFrom || d.kind == .require

/-- The function fragments one after another, each with a closing brace in front of the line break
    that ends it. -/
def closedFragments (ds : List Declaration) : List Char :=
  (ds.filter (·.kind == .function)).flatMap fun d => d.text.toList.dropLast ++ ['\x7d', '\n']

/-- The fragments are slices of the text, one behind another, and each ends a line. -/
structure Placed (t : List Char) (ds : List Declaration) : Prop where
  increasing : ds.Pairwise fun d e => d.offset < e.offset
  slices : ∀ d ∈ ds, (t.drop d.offset).take d.text.toList.length = d.text.toList
  lines : ∀ d ∈ ds, d.text.toList.getLast? = some '\n'

structure IsTypeOf (d : Declaration) (spec : TypeSpec) : Prop where
  kind : spec.kind = d.kind
  name : some spec.name = d.name?
  exported : spec.isExported = d.isExported
  definition : spec.definition = d.text

structure IsImportOf (d : Declaration) (spec : ImportSpec) : Prop where
  kind : spec.kind = d.kind
  path : spec.fromPath = d.fromPath?
  known : spec.fromPath.isSome
  definition : spec.definition = d.text

structure Refuses (ds : List Declaration) (run : Extraction) : Prop where
  record : run.written = scanEntries ds ++
    [(.warning, "Failed to parse function signatures:\n" ++ String.ofList (closedFragments ds))]
  result : run.result = .error .malformedSignature

structure Reports (ds : List Declaration) (run : Extraction) (contents : Contents) : Prop where
  record : run.written = scanEntries ds ++
    [(.debug, "Parsed " ++ toString contents.functions.length ++ " functions, " ++
      toString contents.types.length ++ " types, " ++
      toString contents.imports.length ++ " imports")]
  result : run.result = .ok contents
  types : List.Forall₂ IsTypeOf (ds.filter isType) contents.types
  imports : List.Forall₂ IsImportOf (ds.filter isImport) contents.imports

theorem placed_scan (t : List Char) : Placed t (scan t) := by
  have tiled := tiled_scan t
  constructor
  · exact tiled.ordered.imp fun both => both.1
  · intro d member
    have text := (tiled.piece d member).2.text.1
    rw [text, List.take_left]
  · intro d member
    obtain ⟨_, f, _, form⟩ := (tiled.piece d member).2.text
    exact written_ends_line form

theorem trimEnd_brace (u : List Char) : trimEnd (u ++ ['\x7b', '\n']) = u ++ ['\x7b'] := by
  rw [trimEnd, List.reverse_append]
  change (List.dropWhile isBlank ('\n' :: '\x7b' :: u.reverse)).reverse = _
  rw [List.dropWhile_cons_of_pos (by decide), List.dropWhile_cons_of_neg (by decide)]
  simp

theorem header_ends {w : List Char} (h : w ∈ Form.function.written) :
    ∃ u, w = u ++ ['\x7b', '\n'] := by
  have last : Form.function.written = Form.function.parts.dropLast.prod * exactly "\x7b\n" := by
    simp [Form.written, Form.parts, mul_assoc]
  rw [last] at h
  obtain ⟨u, _, _, rfl, rfl⟩ := Language.mem_mul.1 h
  exact ⟨u, rfl⟩

theorem closeHeader_eq {t : List Char} {d : Declaration} (member : d ∈ headers t) :
    closeHeader d = d.text.toList.dropLast ++ ['\x7d', '\n'] := by
  obtain ⟨u, text⟩ := header_ends (header_written member)
  rw [closeHeader, text, trimEnd_brace]
  simp

theorem signatures_eq (t : List Char) : signatures (scan t) = closedFragments (scan t) := by
  rw [signatures, closedFragments, List.flatMap_def, List.flatMap_def]
  congr 1
  apply List.map_congr_left
  intro d member
  exact closeHeader_eq member

theorem types_of_scan (ds : List Declaration) :
    List.Forall₂ IsTypeOf (ds.filter isType) (ds.filterMap typeSpec?) := by
  apply forall₂_filterMap
  · rintro ⟨o, text, shape⟩ kind
    cases shape with
    | interface name exported => exact ⟨_, rfl, ⟨rfl, rfl, rfl, rfl⟩⟩
    | typeAlias name exported => exact ⟨_, rfl, ⟨rfl, rfl, rfl, rfl⟩⟩
    | _ => cases kind
  · rintro ⟨o, text, shape⟩ kind
    cases shape with
    | interface name exported => cases kind
    | typeAlias name exported => cases kind
    | _ => rfl

theorem imports_of_scan (ds : List Declaration) :
    List.Forall₂ IsImportOf (ds.filter isImport) (ds.filterMap importSpec?) := by
  apply forall₂_filterMap
  · rintro ⟨o, text, shape⟩ kind
    cases shape with
    | importFrom path => exact ⟨_, rfl, ⟨rfl, rfl, rfl, rfl⟩⟩
    | require path => exact ⟨_, rfl, ⟨rfl, rfl, rfl, rfl⟩⟩
    | _ => cases kind
  · rintro ⟨o, text, shape⟩ kind
    cases shape with
    | importFrom path => cases kind
    | require path => cases kind
    | _ => rfl

theorem written_scanned (ds : List Declaration) (e : Event) :
    (ds.map (fun d => Event.scanned d.kind d.offset) ++ [e]).map (fun e => (e.level, e.message)) =
      scanEntries ds ++ [(e.level, e.message)] := by
  rw [List.map_append, List.map_map]
  rfl

/-- A run ends in one of the two ways, as its headers are well formed together or not. -/
theorem ofDeclarations_ends (t : List Char) :
    (∃ e, functionSpecs (signatures (scan t)) = .error e ∧
      Refuses (scan t) (Extraction.ofDeclarations (scan t))) ∨
    ∃ contents, functionSpecs (signatures (scan t)) = .ok contents.functions ∧
      Reports (scan t) (Extraction.ofDeclarations (scan t)) contents := by
  rw [Extraction.ofDeclarations]
  cases specs : functionSpecs (signatures (scan t)) with
  | error e =>
    refine Or.inl ⟨e, rfl, ?_, ?_⟩
    · rw [← signatures_eq]
      exact written_scanned (scan t) _
    · cases e
      rfl
  | ok functions =>
    refine Or.inr ⟨⟨functions, _, _⟩, rfl, ?_, rfl, types_of_scan (scan t), imports_of_scan (scan t)⟩
    exact written_scanned (scan t) _

theorem functions_of_run (source : String) :
    (extract source).result.map Contents.functions =
      functionSpecs (signatures (scan (dedent source.toList))) := by
  rw [extract, result_ofDeclarations]
  cases functionSpecs (signatures (scan (dedent source.toList))) with
  | error e => rfl
  | ok functions => rfl

theorem signatures_congr {ds ds' : List Declaration}
    (same : (ds.filter (·.kind == .function)).map Declaration.text =
      (ds'.filter (·.kind == .function)).map Declaration.text) : signatures ds = signatures ds' := by
  have of_texts (ds : List Declaration) : signatures ds =
      ((ds.filter (·.kind == .function)).map Declaration.text).flatMap
        fun text => trimEnd text.toList ++ ['\x7d', '\n'] := by
    rw [List.flatMap_map]
    rfl
  rw [of_texts, of_texts, same]

/-- Record, specs and scan agree on every run. Which way it ends hangs on the headers alone, and
    without any header it ends in specs. -/
theorem run_accounts (source : String) :
    let t := dedent source.toList
    let run := extract source
    Placed t (scan t) ∧
    (Refuses (scan t) run ∨ ∃ contents, Reports (scan t) run contents) ∧
    (∀ other : String,
      (headers (dedent other.toList)).map Declaration.text = (headers t).map Declaration.text →
        (extract other).result.map Contents.functions = run.result.map Contents.functions) ∧
    (headers t = [] → ∃ contents, Reports (scan t) run contents ∧ contents.functions = []) := by
  intro t run
  have ends := ofDeclarations_ends t
  refine ⟨placed_scan t, ?_, ?_, ?_⟩
  · rcases ends with ⟨_, _, refused⟩ | ⟨contents, _, reported⟩
    · exact Or.inl refused
    · exact Or.inr ⟨contents, reported⟩
  · intro other same
    rw [functions_of_run, functions_of_run, signatures_congr same]
  · intro none_found
    have nothing : functionSpecs (signatures (scan t)) = .ok [] := by
      rw [signatures_scan, none_found]
      rfl
    rcases ends with ⟨e, failed, _⟩ | ⟨contents, found, reported⟩
    · rw [nothing] at failed
      cases failed
    · rw [nothing] at found
      exact ⟨contents, reported, (Except.ok.inj found).symm⟩

end SourceSpecs.Extraction
