import SourceSpecs.Proofs.JsonText
import SourceSpecs.Tool
/-!
The texts that calls of tools are answered with. Each is a JSON text of the answer and of no other,
be it the answer of a tool or that of an error.
-/
namespace SourceSpecs

namespace Json

/-- No object in a value has a name twice. -/
inductive Distinct : Json → Prop where
  | null : Distinct null
  | bool (b : Bool) : Distinct (bool b)
  | number (n : Nat) : Distinct (number n)
  | string (s : String) : Distinct (string s)
  | array {js : List Json} (items : ∀ j ∈ js, Distinct j) : Distinct (array js)
  | object {ms : List (String × Json)} (names : (ms.map Prod.fst).Nodup)
      (values : ∀ m ∈ ms, Distinct m.2) : Distinct (object ms)

theorem distinct_ofOption (s : Option String) : (ofOption s).Distinct := by
  cases s with
  | none => exact .null
  | some s => exact .string s

theorem distinct_strings (ss : List String) : (strings ss).Distinct := by
  apply Distinct.array
  intro j member
  obtain ⟨s, _, rfl⟩ := List.mem_map.1 member
  exact .string s

theorem distinct_map {α : Type} {f : α → Json} (each : ∀ a, (f a).Distinct) (items : List α) :
    (array (items.map f)).Distinct := by
  apply Distinct.array
  intro j member
  obtain ⟨a, _, rfl⟩ := List.mem_map.1 member
  exact each a

theorem distinct_message (message : String) : (object [("error", string message)]).Distinct :=
  .object (by simp) (by simp [Distinct.string])

end Json

open Json

theorem Param.distinct (p : Param) : p.toJson.Distinct := by
  refine .object (by simp) ?_
  simp [distinct_ofOption, Distinct.string]

theorem FunctionSpec.distinct (f : FunctionSpec) : f.toJson.Distinct := by
  refine .object (by simp) ?_
  simp [distinct_strings, distinct_map Param.distinct, Distinct.string]

theorem TypeSpec.distinct (t : TypeSpec) : t.toJson.Distinct := by
  refine .object (by simp) ?_
  simp [Distinct.string, Distinct.bool]

theorem ImportSpec.distinct (i : ImportSpec) : i.toJson.Distinct := by
  refine .object (by simp) ?_
  simp [distinct_strings, distinct_ofOption, Distinct.string]

theorem Contents.distinct_members (c : Contents) : ∃ ms, c.summary = .object ms ∧
    (ms.map Prod.fst).Nodup ∧ "file" ∉ ms.map Prod.fst ∧ ∀ m ∈ ms, m.2.Distinct := by
  have counts : (object [("functions", .number c.functions.length),
      ("types", .number c.types.length), ("imports", .number c.imports.length)]).Distinct := by
    refine .object (by simp) ?_
    simp [Distinct.number]
  refine ⟨_, rfl, by simp, by simp, ?_⟩
  simp [distinct_map FunctionSpec.distinct, distinct_map TypeSpec.distinct,
    distinct_map ImportSpec.distinct, counts]

theorem Contents.distinct (c : Contents) : c.summary.Distinct := by
  obtain ⟨ms, whole, names, _, values⟩ := c.distinct_members
  rw [whole]
  exact .object names values

theorem FileReport.distinct (r : FileReport) : r.toJson.Distinct := by
  cases r with
  | refused r => exact distinct_message r.message
  | read place contents =>
    obtain ⟨ms, whole, names, file, values⟩ := contents.distinct_members
    rw [toJson, whole]
    refine .object (List.nodup_cons.2 ⟨file, names⟩) ?_
    intro m member
    rcases List.mem_cons.1 member with rfl | member
    · exact .string place.text
    · exact values m member

namespace Tool

theorem distinct_answer {w : Workspace} {t : Tool} {text : String} {j : Json}
    (answered : t.answer w text = .ok j) : j.Distinct := by
  cases t with
  | parseSpecs =>
    rw [answer] at answered
    cases result : (extract text).result with
    | error e =>
      rw [result] at answered
      cases answered
    | ok contents =>
      rw [result] at answered
      obtain rfl := Except.ok.inj answered
      exact contents.distinct
  | parseFile =>
    rw [answer] at answered
    cases report : FileReport.ofPath w text (w.environment.value? projectVariable)
        (SizeLimit.ofEnvironment w.environment) with
    | error e =>
      rw [report] at answered
      cases answered
    | ok r =>
      rw [report] at answered
      obtain rfl := Except.ok.inj answered
      exact r.distinct
  | collectTypes =>
    obtain rfl := Except.ok.inj answered
    refine .object (by simp) ?_
    simp [distinct_strings, Distinct.number]
  | checkBuiltin =>
    obtain rfl := Except.ok.inj answered
    refine .object (by simp) ?_
    simp [Distinct.string, Distinct.bool]

/-- What a call is answered with: what the tool of that name answers to its argument, or else the
    message of an error. -/
inductive Answers (w : Workspace) (name : String) (arguments : List (String × String)) : Json → Prop where
  | succeeds {t : Tool} {text : String} {j : Json} (called : t.name = name)
      (given : arguments.lookup t.argument = some text) (answered : t.answer w text = .ok j) :
      Answers w name arguments j
  | fails {t : Tool} {text : String} {f : Failure} (called : t.name = name)
      (given : arguments.lookup t.argument = some text) (failed : t.answer w text = .error f) :
      Answers w name arguments (.object [("error", .string f.message)])
  | missing {t : Tool} (called : t.name = name) (absent : arguments.lookup t.argument = none) :
      Answers w name arguments (.object [("error", .string ("'" ++ t.argument ++ "'"))])
  | unknown (other : ∀ t : Tool, t.name ≠ name) :
      Answers w name arguments (.object [("error", .string ("Unknown tool: " ++ name))])

theorem ofName?_name (t : Tool) : ofName? t.name = some t := by
  cases t <;> decide

theorem name_of_ofName? {name : String} {t : Tool} (found : ofName? name = some t) : t.name = name := by
  have same := List.find?_some found
  simpa using same

section Call

variable (w : Workspace) (name : String) (arguments : List (String × String))

theorem answers_result : Answers w name arguments (result w name arguments) := by
  unfold result run
  cases found : ofName? name with
  | none =>
    refine .unknown ?_
    intro t called
    rw [← called, ofName?_name] at found
    cases found
  | some t =>
    have called := name_of_ofName? found
    cases given : arguments.lookup t.argument with
    | none =>
      simp only [given]
      exact .missing called given
    | some text =>
      cases answered : t.answer w text with
      | ok j =>
        simp only [given, answered]
        exact .succeeds called given answered
      | error f =>
        simp only [given, answered]
        exact .fails called given answered

variable {w name arguments}

theorem result_of_answers {j : Json} (answers : Answers w name arguments j) :
    result w name arguments = j := by
  cases answers with
  | succeeds called given answered =>
    rw [← called, result, run, ofName?_name]
    simp only [given, answered]
    rfl
  | fails called given failed =>
    rw [← called, result, run, ofName?_name]
    simp only [given, failed]
    rfl
  | missing called absent =>
    rw [← called, result, run, ofName?_name]
    simp only [absent]
    rfl
  | unknown other =>
    have none : ofName? name = none := by
      apply List.find?_eq_none.2
      intro t _
      simpa using other t
    rw [result, run, none]
    rfl

theorem answers_iff {j : Json} : Answers w name arguments j ↔ j = result w name arguments := by
  constructor
  · intro answers
    exact (result_of_answers answers).symm
  · intro same
    rw [same]
    exact answers_result w name arguments

theorem distinct_of_answers {j : Json} (answers : Answers w name arguments j) : j.Distinct := by
  cases answers with
  | succeeds _ _ answered => exact distinct_answer answered
  | _ => exact distinct_message _

end Call

/-- A call is answered with the JSON text of one value: the one that the tool answers, or else the one
    that tells of the error. It is ASCII, its strings hold no control character, and calls that come
    to different values are answered with different texts. -/
theorem call_decodes (w : Workspace) (name : String) (arguments : List (String × String)) :
    (∃ j, (∀ j', Answers w name arguments j' ↔ j' = j) ∧ j.Distinct ∧
      Json.ofText? (call w name arguments) = some j) ∧
    (∀ c ∈ (call w name arguments).toList, c.toNat ≤ 0x7F) ∧
    controlFree .outside (call w name arguments).toList = true ∧
    ∀ w' name' arguments' j j', Answers w name arguments j → Answers w' name' arguments' j' →
      call w name arguments = call w' name' arguments' → j = j' := by
  refine ⟨⟨result w name arguments, fun j => answers_iff, ?_, ?_⟩, render_ascii _,
    controlFree_render _, ?_⟩
  · exact distinct_of_answers (answers_result w name arguments)
  · exact ofText?_render _
  · intro w' name' arguments' j j' answers answers' same
    have read := ofText?_render (result w name arguments)
    have read' := ofText?_render (result w' name' arguments')
    change ofText? (call w name arguments) = _ at read
    change ofText? (call w' name' arguments') = _ at read'
    rw [same, read'] at read
    rw [← result_of_answers answers, ← result_of_answers answers']
    exact (Option.some.inj read).symm

end Tool

end SourceSpecs
