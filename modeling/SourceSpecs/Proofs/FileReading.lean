import SourceSpecs.Proofs.Utf8Reading
import SourceSpecs.Tool
/-!
Reports on files, as opposed to texts. A file that is there, has the ending of a source file and is
not too large is reported as its text is, with its place in front. Its text is what its bytes stand
for, each line ending folded into a line feed.
-/
namespace SourceSpecs.Text

/-- A text with every `\r\n` and every other `\r` written as `\n`. -/
inductive Folds : List Char → List Char → Prop where
  | nil : Folds [] []
  | pair {t u : List Char} (rest : Folds t u) : Folds ('\r' :: '\n' :: t) ('\n' :: u)
  | lone {t u : List Char} (alone : t.head? ≠ some '\n') (rest : Folds t u) :
      Folds ('\r' :: t) ('\n' :: u)
  | other {c : Char} {t u : List Char} (other : c ≠ '\r') (rest : Folds t u) :
      Folds (c :: t) (c :: u)

section Folds

variable {t u : List Char}

def foldFrom (before : Char) (t : List Char) : List Char :=
  (List.zip (before :: t) t).filterMap fun (before, c) => foldEnding before c

theorem foldFrom_cons (before c : Char) (t : List Char) :
    foldFrom before (c :: t) = (foldEnding before c).toList ++ foldFrom c t := by
  rw [foldFrom, List.zip_cons_cons, List.filterMap_cons]
  dsimp only
  cases foldEnding before c with
  | none => rfl
  | some d => rfl

theorem foldFrom_eq_foldEndings {before : Char} (apart : before ≠ '\r' ∨ t.head? ≠ some '\n') :
    foldFrom before t = foldEndings t := by
  cases t with
  | nil => rfl
  | cons c t =>
    have same : foldEnding before c = foldEnding ' ' c := by
      unfold foldEnding
      rcases apart with other | other
      · simp [other]
      · have : c ≠ '\n' := by simpa using other
        simp [this]
    change foldFrom before (c :: t) = foldFrom ' ' (c :: t)
    rw [foldFrom_cons, foldFrom_cons, same]

theorem foldEndings_cons (c : Char) (t : List Char) :
    foldEndings (c :: t) = (foldEnding ' ' c).toList ++ foldFrom c t := foldFrom_cons ' ' c t

theorem foldEndings_of_folds (h : Folds t u) : foldEndings t = u := by
  induction h with
  | nil => rfl
  | @pair t u rest ih =>
    rw [foldEndings_cons, foldFrom_cons, foldFrom_eq_foldEndings (Or.inl (by decide)), ih]
    rfl
  | lone alone rest ih =>
    rw [foldEndings_cons, foldFrom_eq_foldEndings (Or.inr alone), ih]
    rfl
  | other other rest ih =>
    rw [foldEndings_cons, foldFrom_eq_foldEndings (Or.inl other), ih,
      foldEnding_of_ne other (by decide)]
    rfl

theorem exists_folds (t : List Char) : ∃ u, Folds t u := by
  -- Behind a carriage return, a line feed is left out, so its rest has to be folded as well.
  have both : (∃ u, Folds t u) ∧ ∀ t', t = '\n' :: t' → ∃ u, Folds t' u := by
    induction t with
    | nil => exact ⟨⟨[], .nil⟩, by simp⟩
    | cons c t ih =>
      obtain ⟨⟨u, rest⟩, later⟩ := ih
      refine ⟨?_, ?_⟩
      · by_cases other : c ≠ '\r'
        · exact ⟨c :: u, .other other rest⟩
        obtain rfl := Classical.not_not.1 other
        by_cases alone : t.head? ≠ some '\n'
        · exact ⟨'\n' :: u, .lone alone rest⟩
        obtain ⟨t', rfl⟩ := List.head?_eq_some_iff.1 (Classical.not_not.1 alone)
        obtain ⟨u', rest'⟩ := later t' rfl
        exact ⟨'\n' :: u', .pair rest'⟩
      · intro t' same
        obtain ⟨_, rfl⟩ := List.cons.inj same
        exact ⟨u, rest⟩
  exact both.1

theorem folds_iff : Folds t u ↔ foldEndings t = u := by
  constructor
  · exact foldEndings_of_folds
  · intro same
    obtain ⟨v, folds⟩ := exists_folds t
    rw [← same, foldEndings_of_folds folds]
    exact folds

theorem foldEndings_free (t : List Char) : '\r' ∉ foldEndings t := by
  obtain ⟨u, folds⟩ := exists_folds t
  rw [folds_iff.1 folds]
  induction folds with
  | nil => exact List.not_mem_nil
  | pair rest ih => exact List.not_mem_cons_of_ne_of_not_mem (by decide) ih
  | lone alone rest ih => exact List.not_mem_cons_of_ne_of_not_mem (by decide) ih
  | other other rest ih => exact List.not_mem_cons_of_ne_of_not_mem other.symm ih

def withEnding (ending t : List Char) : List Char := t.flatMap fun c => if c = '\n' then ending else [c]

theorem withEnding_cons (ending : List Char) (c : Char) (t : List Char) :
    withEnding ending (c :: t) = (if c = '\n' then ending else [c]) ++ withEnding ending t :=
  List.flatMap_cons

def lineEndings : List (List Char) := [['\n'], ['\r', '\n'], ['\r']]

theorem not_mem_withEnding (t : List Char) : '\n' ∉ withEnding ['\r'] t := by
  intro member
  obtain ⟨c, _, here⟩ := List.mem_flatMap.1 member
  split at here
  · exact absurd (List.mem_singleton.1 here) (by decide)
  · rename_i other
    exact other (List.mem_singleton.1 here).symm

/-- Whichever way its lines end, a text is folded into the one where they end in line feeds. -/
theorem folds_withEnding {ending : List Char} (way : ending ∈ lineEndings) (free : '\r' ∉ t) :
    Folds (withEnding ending t) t := by
  induction t with
  | nil => exact .nil
  | cons c t ih =>
    have rest := ih fun inside => free (List.mem_cons_of_mem c inside)
    have other : c ≠ '\r' := by
      intro same
      exact free (same ▸ List.mem_cons_self)
    rw [withEnding_cons]
    by_cases feed : c = '\n'
    · rw [if_pos feed, feed]
      simp only [lineEndings, List.mem_cons, List.not_mem_nil, or_false] at way
      rcases way with rfl | rfl | rfl
      · exact .other (by decide) rest
      · exact .pair rest
      · refine .lone ?_ rest
        intro first
        exact not_mem_withEnding t (List.mem_of_head? first)
    · rw [if_neg feed]
      exact .other other rest

/-- The bytes of a file stand for a text. -/
def Stores (bytes : List UInt8) (t : List Char) : Prop := ∃ raw, Decodes bytes raw ∧ Folds raw t

theorem stores_iff {bytes : List UInt8} : Stores bytes t ↔ decodeSource bytes = t := by
  constructor
  · intro ⟨raw, decodes, folds⟩
    rw [decodeSource, decodes_iff.1 decodes, folds_iff.1 folds]
  · intro same
    exact ⟨_, decodes_iff.2 rfl, folds_iff.2 same⟩

theorem stores_withEnding {ending : List Char} (way : ending ∈ lineEndings) (free : '\r' ∉ t) :
    Stores (encodeUtf8 (withEnding ending t)) t :=
  ⟨_, decodes_encodeUtf8 _, folds_withEnding way free⟩

theorem length_encodeUtf8_append (a b : List Char) :
    (encodeUtf8 (a ++ b)).length = (encodeUtf8 a).length + (encodeUtf8 b).length := by
  rw [encodeUtf8, List.flatMap_append, List.length_append]
  rfl

theorem length_withEnding_return (t : List Char) :
    (encodeUtf8 (withEnding ['\r'] t)).length = (encodeUtf8 t).length := by
  induction t with
  | nil => rfl
  | cons c t ih =>
    rw [withEnding_cons, length_encodeUtf8_append, ih, ← List.singleton_append (l := t),
      length_encodeUtf8_append]
    by_cases feed : c = '\n'
    · rw [if_pos feed, feed]
      rfl
    · rw [if_neg feed]

theorem withEnding_feed (t : List Char) : withEnding ['\n'] t = t := by
  induction t with
  | nil => rfl
  | cons c t ih =>
    rw [withEnding_cons, ih]
    by_cases feed : c = '\n'
    · rw [if_pos feed, feed, List.singleton_append]
    · rw [if_neg feed, List.singleton_append]

end Folds

end SourceSpecs.Text

namespace SourceSpecs.FileReport

open Text

def errorAnswer (message : String) : Json := .object [("error", .string message)]

def withFile (place : Place) (answer : Json) : Json :=
  (Json.object [("file", .string place.text)]).append answer

def answer (w : Workspace) (path : String) (project : Option String) (limit : Int) :
    Except Failure Json :=
  (ofPath w path project limit).map toJson

def Holds (w : Workspace) (place : Place) (bytes : List UInt8) : Prop :=
  w.files.get? place = some (.file bytes)

def IsSource (place : Place) : Prop := suffix (place.getLast?.getD "") ∈ [".ts", ".mts", ".cts"]

/-- A place that does not pass the gates, and the message at the first one that stops it. -/
inductive Stopped (w : Workspace) (place : Place) (limit : Int) : String → Prop where
  | notFound (missing : ¬ ∃ bytes, Holds w place bytes) :
      Stopped w place limit ("File not found: " ++ place.text)
  | unsupported {bytes : List UInt8} (file : Holds w place bytes) (other : ¬ IsSource place) :
      Stopped w place limit ("Unsupported file type: " ++
        if suffix (place.getLast?.getD "") = "" then place.getLast?.getD ""
        else suffix (place.getLast?.getD ""))
  | tooLarge {bytes : List UInt8} (file : Holds w place bytes) (source : IsSource place)
      (large : limit < bytes.length) :
      Stopped w place limit ("File too large: " ++ toString bytes.length ++ " bytes (limit " ++
        toString limit ++ ")")

section Answer

variable {w : Workspace} {path : String} {project : Option String} {limit : Int} {place : Place}
  {bytes : List UInt8} {t : List Char}

theorem file?_eq_some_iff : w.files.file? place = some bytes ↔ Holds w place bytes := by
  unfold FileSystem.file? Holds
  split
  · rename_i found
    simp [found]
  · rename_i other
    simpa using other bytes

theorem stopped_or_passes (w : Workspace) (place : Place) (limit : Int) :
    (∃ message, Stopped w place limit message) ∨
      ∃ bytes, Holds w place bytes ∧ IsSource place ∧ bytes.length ≤ limit := by
  by_cases file : ∃ bytes, Holds w place bytes
  · obtain ⟨bytes, file⟩ := file
    by_cases source : IsSource place
    · by_cases large : limit < bytes.length
      · exact Or.inl ⟨_, .tooLarge file source large⟩
      · exact Or.inr ⟨bytes, file, source, Int.not_lt.1 large⟩
    · exact Or.inl ⟨_, .unsupported file source⟩
  · exact Or.inl ⟨_, .notFound file⟩

theorem readable_of_stopped {message : String} (stopped : Stopped w place limit message) :
    ∃ refusal, readable w.files place limit = .error refusal ∧ refusal.message = message := by
  cases stopped with
  | notFound missing =>
    have none : w.files.file? place = none := by
      rw [Option.eq_none_iff_forall_ne_some]
      intro bytes found
      exact missing ⟨bytes, file?_eq_some_iff.1 found⟩
    refine ⟨.notFound place, ?_, rfl⟩
    rw [readable, none]
  | unsupported file other =>
    refine ⟨.unsupported _, ?_, rfl⟩
    rw [readable, file?_eq_some_iff.2 file]
    exact if_pos other
  | @tooLarge bytes file source large =>
    refine ⟨.tooLarge bytes.length limit, ?_, rfl⟩
    rw [readable, file?_eq_some_iff.2 file]
    exact (if_neg (not_not_intro source)).trans (if_pos large)

theorem answer_of_stopped (resolved : w.locateSource path project = .ok place) {message : String}
    (stopped : Stopped w place limit message) :
    answer w path project limit = .ok (errorAnswer message) := by
  obtain ⟨refusal, refused, rfl⟩ := readable_of_stopped stopped
  rw [answer, ofPath, resolved]
  dsimp only
  rw [ofPlace, refused]
  rfl

theorem ofPath_of_stores (resolved : w.locateSource path project = .ok place)
    (file : Holds w place bytes) (source : IsSource place) (fits : bytes.length ≤ limit)
    (stores : Stores bytes t) :
    ofPath w path project limit =
      ((extract (String.ofList t)).result.map (.read place)).mapError .extraction := by
  have passed : readable w.files place limit = .ok bytes := by
    rw [readable, file?_eq_some_iff.2 file]
    exact (if_neg (not_not_intro source)).trans (if_neg (Int.not_lt.2 fits))
  rw [ofPath, resolved]
  dsimp only
  rw [ofPlace, passed]
  dsimp only
  rw [stores_iff.1 stores]

theorem answer_of_stores (resolved : w.locateSource path project = .ok place)
    (file : Holds w place bytes) (source : IsSource place) (fits : bytes.length ≤ limit)
    (stores : Stores bytes t) :
    answer w path project limit =
      (Tool.parseSpecs.answer w (String.ofList t)).map (withFile place) := by
  rw [answer, ofPath_of_stores resolved file source fits stores, Tool.answer]
  cases (extract (String.ofList t)).result with
  | error e => rfl
  | ok contents => rfl

theorem withFile_ne_errorAnswer (j : Json) (message : String) :
    withFile place j ≠ errorAnswer message := by
  have other : "file" ≠ "error" := by decide
  intro same
  cases j with
  | object members =>
    obtain ⟨first, _⟩ := List.cons.inj (Json.object.inj same)
    exact other (congrArg Prod.fst first)
  | _ =>
    obtain ⟨first, _⟩ := List.cons.inj (Json.object.inj same)
    exact other (congrArg Prod.fst first)

theorem map_withFile_ne (outcome : Except Failure Json) (message : String) :
    outcome.map (withFile place) ≠ .ok (errorAnswer message) := by
  intro same
  cases outcome with
  | error e => cases same
  | ok j => exact withFile_ne_errorAnswer j message (Except.ok.inj same)

/-- Where no gate stops a file, the answer tells of no error. -/
theorem answer_eq_errorAnswer_iff (resolved : w.locateSource path project = .ok place)
    (message : String) : answer w path project limit = .ok (errorAnswer message) ↔
      Stopped w place limit message := by
  constructor
  · intro refused
    rcases stopped_or_passes w place limit with
      ⟨message', stopped⟩ | ⟨bytes, file, source, fits⟩
    · rw [answer_of_stopped resolved stopped] at refused
      have same : message' = message := by
        simpa [errorAnswer] using refused
      exact same ▸ stopped
    · rw [answer_of_stores resolved file source fits (stores_iff.2 rfl)] at refused
      exact absurd refused (map_withFile_ne _ message)
  · exact answer_of_stopped resolved

theorem exists_stopped_iff : (∃ message, Stopped w place limit message) ↔
    (¬ ∃ bytes, Holds w place bytes) ∨ ¬ IsSource place ∨
      ∃ bytes, Holds w place bytes ∧ limit < bytes.length := by
  constructor
  · intro ⟨message, stopped⟩
    cases stopped with
    | notFound missing => exact Or.inl missing
    | unsupported file other => exact Or.inr (Or.inl other)
    | tooLarge file source large => exact Or.inr (Or.inr ⟨_, file, large⟩)
  · intro gates
    refine (stopped_or_passes w place limit).resolve_right ?_
    intro ⟨bytes, file, source, fits⟩
    rcases gates with missing | other | ⟨bytes', file', large⟩
    · exact missing ⟨bytes, file⟩
    · exact other source
    · obtain rfl := Entry.file.inj (Option.some.inj (file.symm.trans file'))
      omega

/-- A file is refused with the message of the first gate that stops it, and otherwise it is answered
    as its text is, or fails as its text does. The way its lines end makes no difference, unless it
    makes the file too large. -/
theorem answer_of_resolved (limit : Int) (resolved : w.locateSource path project = .ok place) :
    ((∃ message, answer w path project limit = .ok (errorAnswer message)) ↔
      (¬ ∃ bytes, Holds w place bytes) ∨ ¬ IsSource place ∨
        ∃ bytes, Holds w place bytes ∧ limit < bytes.length) ∧
    (∀ message, answer w path project limit = .ok (errorAnswer message) ↔
      Stopped w place limit message) ∧
    (∀ bytes, Holds w place bytes → IsSource place → bytes.length ≤ limit →
      ∃ t, (∀ t', Stores bytes t' ↔ t' = t) ∧ answer w path project limit =
        (Tool.parseSpecs.answer w (String.ofList t)).map (withFile place)) ∧
    ∀ t, '\r' ∉ t → (encodeUtf8 t).length ≤ limit → IsSource place →
      (Holds w place (encodeUtf8 t) ∨ Holds w place (encodeUtf8 (withEnding ['\r'] t)) ∨
        Holds w place (encodeUtf8 (withEnding ['\r', '\n'] t)) ∧
          (encodeUtf8 (withEnding ['\r', '\n'] t)).length ≤ limit) →
      answer w path project limit =
        (Tool.parseSpecs.answer w (String.ofList t)).map (withFile place) := by
  refine ⟨?_, answer_eq_errorAnswer_iff resolved, ?_, ?_⟩
  · rw [← exists_stopped_iff]
    exact exists_congr (answer_eq_errorAnswer_iff resolved)
  · intro bytes file source fits
    refine ⟨decodeSource bytes, ?_, answer_of_stores resolved file source fits (stores_iff.2 rfl)⟩
    intro t
    rw [stores_iff, eq_comm]
  · intro t free fits source file
    have same {ending : List Char} (way : ending ∈ lineEndings)
        (file : Holds w place (encodeUtf8 (withEnding ending t)))
        (fits : (encodeUtf8 (withEnding ending t)).length ≤ limit) :=
      answer_of_stores resolved file source fits (stores_withEnding way free)
    rcases file with feed | carriage | ⟨both, fits'⟩
    · rw [← withEnding_feed t] at feed fits
      exact same (by decide) feed fits
    · rw [← length_withEnding_return] at fits
      exact same (by decide) carriage fits
    · exact same (by decide) both fits'

end Answer

def typeLine : List Char := "type A = B;\n".toList

def lineFile (ending : List Char) : Workspace where
  files := ⟨[(["a.ts"], .file (encodeUtf8 (withEnding ending typeLine)))]⟩

def onlyFile (bytes : List UInt8) : Workspace where
  files := ⟨[(["a.ts"], .file bytes)]⟩

theorem onlyFile_resolved (bytes : List UInt8) :
    (onlyFile bytes).locateSource "/a.ts" none = .ok ["a.ts"] := by
  have name : Path.ofText "/a.ts" = ⟨true, ["a.ts"]⟩ := by decide
  have resolved : (onlyFile bytes).files.walk (onlyFile bytes).files.links [] ["a.ts"] =
      .ok ["a.ts"] := by
    rw [FileSystem.walk, if_neg (by decide), if_neg (by decide)]
    change (onlyFile bytes).files.walk _ ["a.ts"] [] = _
    rw [FileSystem.walk]
  rw [Workspace.locateSource, name]
  exact resolved

theorem lineFile_resolved (ending : List Char) :
    (lineFile ending).locateSource "/a.ts" none = .ok ["a.ts"] :=
  onlyFile_resolved (encodeUtf8 (withEnding ending typeLine))

theorem isSource_lineFile : IsSource ["a.ts"] := show suffix "a.ts" ∈ _ by decide

theorem stopped_crlfFile :
    Stopped (lineFile ['\r', '\n']) ["a.ts"] 12 "File too large: 13 bytes (limit 12)" := by
  have file : Holds (lineFile ['\r', '\n']) ["a.ts"]
      (encodeUtf8 (withEnding ['\r', '\n'] typeLine)) := rfl
  exact .tooLarge file isSource_lineFile (by decide)

theorem answer_of_lineFile :
    answer (lineFile ['\r']) "/a.ts" none 12 =
        (Tool.parseSpecs.answer (lineFile ['\r']) "type A = B;\n").map (withFile ["a.ts"]) ∧
      answer (lineFile ['\r', '\n']) "/a.ts" none 13 =
        (Tool.parseSpecs.answer (lineFile ['\r', '\n']) "type A = B;\n").map (withFile ["a.ts"]) ∧
      answer (lineFile ['\r', '\n']) "/a.ts" none 12 =
        .ok (errorAnswer "File too large: 13 bytes (limit 12)") := by
  have carriage := (answer_of_resolved 12 (lineFile_resolved ['\r'])).2.2.2 typeLine (by decide)
  have both := (answer_of_resolved 13 (lineFile_resolved ['\r', '\n'])).2.2.2 typeLine (by decide)
  have stopped := (answer_of_resolved 12 (lineFile_resolved ['\r', '\n'])).2.1
  refine ⟨?_, ?_, (stopped _).2 stopped_crlfFile⟩
  · exact carriage (by decide) isSource_lineFile (Or.inr (Or.inl rfl))
  · exact both (by decide) isSource_lineFile (Or.inr (Or.inr ⟨rfl, by decide⟩))

/-- A text within the limit may make a file that is not, when its lines end in two characters. -/
theorem crlf_file_stopped :
    ¬ ∀ (w : Workspace) (path : String) (project : Option String) (limit : Int) (place : Place)
        (t : List Char), w.locateSource path project = .ok place → IsSource place → '\r' ∉ t →
      (encodeUtf8 t).length ≤ limit →
      Holds w place (encodeUtf8 (withEnding ['\r', '\n'] t)) →
      answer w path project limit =
        (Tool.parseSpecs.answer w (String.ofList t)).map (withFile place) := by
  intro same
  have refused := answer_of_stopped (lineFile_resolved ['\r', '\n']) stopped_crlfFile
  rw [same _ _ _ 12 _ typeLine (lineFile_resolved ['\r', '\n']) isSource_lineFile (by decide)
    (by decide) rfl] at refused
  exact map_withFile_ne _ _ refused

end SourceSpecs.FileReport
