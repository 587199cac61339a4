import SourceSpecs.FileReport
import SourceSpecs.Proofs.PathResolution
/-!
Where the path of a source file leads. The place is its own path, and no link leads away from it, so
that a file has one report, however its path is written.
-/
namespace SourceSpecs

theorem Path.ofText_text {p : Place} (formed : ∀ n ∈ p, IsPathName n) :
    Path.ofText p.text = ⟨true, p⟩ := by
  have text : p.text.toList = '/' :: Text.joinPieces '/' (p.map String.toList) := by
    rw [Place.text, String.toList_append, String.toList_intercalate]
    rfl
  have kept : p.filter (fun n => n != "" && n != ".") = p := by
    rw [List.filter_eq_self]
    intro n member
    simp [(formed n member).some_character, (formed n member).not_here]
  rw [Path.ofText, text, Text.pieces_mark]
  by_cases root : p = []
  · rw [root]
    rfl
  · have apart : ∀ q ∈ p.map String.toList, '/' ∉ q := by
      intro q member
      obtain ⟨n, inside, rfl⟩ := List.mem_map.1 member
      exact (formed n inside).no_slash
    have same : (p.map String.toList).map String.ofList = p := by simp
    rw [Text.pieces_joinPieces apart (by simpa using root), List.map_cons, same,
      List.filter_cons_of_neg (by simp), kept]
    rfl

section Homes

variable {e : Environment} {t : String}

structure Environment.HasHome (e : Environment) : Prop where
  absolute : ∃ home, e.value? "HOME" = some home ∧ home.toList.head? = some '/'
  null_free : ∀ account home, e.home? account = some home → NullFree home.toList

/-- A text that may be taken for a path: it holds no null character, and if it begins with the name
    of an account then the account has a home. -/
structure Environment.Understands (e : Environment) (t : String) : Prop where
  null_free : NullFree t.toList
  known : ∀ account rest, Path.ofText t = ⟨false, ("~" ++ account) :: rest⟩ → account ≠ "" →
    ((e.home? account).bind Path.ofHome?).isSome = true

theorem isPathName_of_ofHome? {home n : String} {p : Path} (null_free : NullFree home.toList)
    (path : Path.ofHome? home = some p) (member : n ∈ p.names) : IsPathName n := by
  rw [Path.ofHome?] at path
  split at path
  · obtain rfl := Option.some.inj path
    cases member
  · cases path
  · obtain rfl := Option.some.inj path
    exact Path.isPathName_of_ofText null_free member

theorem exists_home (has : e.HasHome) {account : String}
    (known : account ≠ "" → ((e.home? account).bind Path.ofHome?).isSome = true) :
    ∃ home, (e.home? account).bind Path.ofHome? = some home ∧ ∀ n ∈ home.names, IsPathName n := by
  have found : ((e.home? account).bind Path.ofHome?).isSome = true := by
    by_cases given : account = ""
    · obtain ⟨home, value, absolute⟩ := has.absolute
      obtain ⟨rest, chars⟩ := List.head?_eq_some_iff.1 absolute
      rw [Environment.home?, if_pos given, value]
      simp [Path.ofHome?, chars]
    · exact known given
  obtain ⟨p, path⟩ := Option.isSome_iff_exists.1 found
  obtain ⟨home, lookup, expanded⟩ := Option.bind_eq_some_iff.1 path
  exact ⟨p, path, fun n => isPathName_of_ofHome? (has.null_free account home lookup) expanded⟩

theorem exists_expandHome (has : e.HasHome) (understood : e.Understands t) :
    ∃ p, (Path.ofText t).expandHome e = .ok p ∧ ∀ n ∈ p.names, IsPathName n := by
  have formed : ∀ n ∈ (Path.ofText t).names, IsPathName n :=
    fun _ => Path.isPathName_of_ofText understood.null_free
  rw [Path.expandHome]
  split
  · rename_i first rest relative names
    split
    · rename_i account chars
      have first_formed : IsPathName first := formed first (names ▸ List.mem_cons_self)
      have null_free : NullFree account := fun c inside =>
        first_formed.null_free c (chars ▸ List.mem_cons_of_mem _ inside)
      have name : first = "~" ++ String.ofList account := by
        rw [← String.toList_inj, chars]
        simp
      have path : Path.ofText t = ⟨false, ("~" ++ String.ofList account) :: rest⟩ := by
        rw [← name, ← names, ← relative]
      obtain ⟨home, found, home_formed⟩ := exists_home has fun given =>
        understood.known (String.ofList account) rest path given
      rw [if_neg (nullFree_iff.1 null_free), found]
      refine ⟨_, rfl, fun n member => ?_⟩
      rcases List.mem_append.1 member with inside | later
      · exact home_formed n inside
      · exact formed n (names ▸ List.mem_cons_of_mem first later)
    · exact ⟨_, rfl, formed⟩
  · exact ⟨_, rfl, formed⟩

end Homes

/-- The working directory is there, on no detour; no link leads back to itself; and there is a home. -/
structure Workspace.IsProper (w : Workspace) : Prop where
  targets : w.files.HasTargets
  acyclic : w.files.Acyclic
  names : ∀ n ∈ w.directory, IsFileName n
  directory : ∀ above, above <+: w.directory → w.files.get? above = some .directory
  home : w.environment.HasHome

namespace Workspace

variable {w : Workspace} {path : String} {project : Option String}

theorem IsProper.canonical (proper : w.IsProper) : w.files.IsCanonical w.directory := by
  refine ⟨proper.names, fun above front => ?_⟩
  rw [FileSystem.link?, proper.directory above front]

theorem exists_projectPath (proper : w.IsProper)
    (understood : ∀ t ∈ project, w.environment.Understands t) :
    ∃ p, w.projectPath project = .ok p ∧ ∀ n ∈ p.names, IsPathName n := by
  unfold projectPath
  split
  · exact ⟨_, rfl, fun n member => (proper.names n member).toIsPathName⟩
  · exact ⟨_, rfl, fun n member => (proper.names n member).toIsPathName⟩
  · exact exists_expandHome proper.home (understood _ rfl)

theorem exists_locateSource (proper : w.IsProper) (understood : w.environment.Understands path)
    (project_understood : ∀ t ∈ project, w.environment.Understands t) :
    ∃ place, w.locateSource path project = .ok place ∧ w.files.IsCanonical place := by
  obtain ⟨p, expanded, formed⟩ := exists_expandHome proper.home understood
  obtain ⟨base, based, base_formed⟩ := exists_projectPath proper project_understood
  have located (q : Path) := FileSystem.exists_locate (p := q) proper.targets proper.acyclic
    proper.canonical
  rw [locateSource, expanded, based]
  dsimp only
  split
  · exact located p formed
  · rename_i relative
    refine located (base.join p) ?_
    rw [Path.join, if_neg relative]
    exact fun n member => (List.mem_append.1 member).elim (base_formed n) (formed n)

theorem locateSource_of_isAbsolute (absolute : (Path.ofText path).isAbsolute = true) :
    w.locateSource path project = w.locate (Path.ofText path) := by
  have expanded : (Path.ofText path).expandHome w.environment = .ok (Path.ofText path) := by
    rw [Path.expandHome, absolute]
  rw [locateSource, expanded]
  exact if_pos absolute

theorem locateSource_text {place : Place} (canonical : w.files.IsCanonical place) :
    w.locateSource place.text project = .ok place := by
  have path := Path.ofText_text fun n member => (canonical.names n member).toIsPathName
  rw [locateSource_of_isAbsolute (by rw [path]), path]
  exact FileSystem.locate_canonical canonical w.directory

/-- The path of a source file leads to a place, which no link leads away from. The place is its own
    path, whatever the project, and the report on it is the report on the file. A path from the root
    leads to it from every project. -/
theorem locateSource_canonical (proper : w.IsProper) (understood : w.environment.Understands path)
    (project_understood : ∀ t ∈ project, w.environment.Understands t) :
    ∃ place, w.locateSource path project = .ok place ∧ w.files.IsCanonical place ∧
      Path.ofText place.text = ⟨true, place⟩ ∧
      (∀ project', w.locateSource place.text project' = .ok place) ∧
      ((Path.ofText path).isAbsolute = true →
        ∀ project', w.locateSource path project' = .ok place) ∧
      ∀ project' limit, FileReport.ofPath w place.text project' limit =
        FileReport.ofPath w path project limit := by
  obtain ⟨place, located, canonical⟩ := exists_locateSource proper understood project_understood
  refine ⟨place, located, canonical, ?_, ?_, ?_, ?_⟩
  · exact Path.ofText_text fun n member => (canonical.names n member).toIsPathName
  · exact fun project' => locateSource_text canonical
  · intro absolute project'
    rw [← located, locateSource_of_isAbsolute absolute, locateSource_of_isAbsolute absolute]
  · intro project' limit
    rw [FileReport.ofPath, FileReport.ofPath, locateSource_text canonical, located]

def linkedWorkspace : Workspace where
  files := ⟨[(["w"], .directory), (["b"], .directory), (["l"], .link (Path.ofText "b"))]⟩
  directory := ["w"]
  environment := ⟨[("HOME", "/w")], []⟩

theorem isProper_linkedWorkspace : linkedWorkspace.IsProper := by
  have only {place : Place} {target : Path}
      (link : linkedWorkspace.files.link? place = some target) : place = ["l"] ∧ target = Path.ofText "b" := by
    have inside : place ∈ linkedWorkspace.files.links := FileSystem.mem_links (by rw [link]; rfl)
    have links : linkedWorkspace.files.links = [["l"]] := by decide
    obtain rfl : place = ["l"] := List.mem_singleton.1 (links ▸ inside)
    exact ⟨rfl, (Option.some.inj link).symm⟩
  have path : Path.ofText "b" = ⟨false, ["b"]⟩ := by decide
  have isFileName (n : String) (member : n ∈ ["b", "w"]) : IsFileName n := by
    simp only [List.mem_cons, List.not_mem_nil, or_false] at member
    rcases member with rfl | rfl <;> exact ⟨⟨by decide, by decide, by decide, by decide⟩, by decide⟩
  constructor
  · intro place target link
    obtain ⟨_, rfl⟩ := only link
    exact ⟨"b", by decide, rfl⟩
  · apply FileSystem.acyclic_of_canonical
    intro here name target link
    obtain ⟨place, rfl⟩ := only link
    obtain ⟨rfl, _⟩ := List.append_inj' (place.trans (List.nil_append ["l"]).symm) rfl
    rw [path]
    exact FileSystem.isCanonical_root.append (isFileName "b" (by simp)) rfl
  · intro n member
    exact isFileName n (List.mem_cons_of_mem "b" member)
  · intro above front
    rcases List.prefix_cons_iff.1 front with rfl | ⟨rest, rfl, shorter⟩
    · rfl
    · rw [List.prefix_nil.1 shorter]
      rfl
  · refine ⟨⟨"/w", by decide, by decide⟩, fun account home found => ?_⟩
    rw [Environment.home?] at found
    split at found
    · obtain rfl := Option.some.inj found
      decide
    · cases found

theorem locateSource_canonical_linkedWorkspace :
    ∃ place, linkedWorkspace.locateSource "~/../l/a.ts" none = .ok place ∧
      linkedWorkspace.files.IsCanonical place ∧ Path.ofText place.text = ⟨true, place⟩ ∧
      (∀ project', linkedWorkspace.locateSource place.text project' = .ok place) ∧
      ((Path.ofText "~/../l/a.ts").isAbsolute = true →
        ∀ project', linkedWorkspace.locateSource "~/../l/a.ts" project' = .ok place) ∧
      ∀ project' limit, FileReport.ofPath linkedWorkspace place.text project' limit =
        FileReport.ofPath linkedWorkspace "~/../l/a.ts" none limit := by
  have understood : linkedWorkspace.environment.Understands "~/../l/a.ts" := by
    refine ⟨by decide, fun account rest path given => ?_⟩
    have names : Path.ofText "~/../l/a.ts" = ⟨false, ["~", "..", "l", "a.ts"]⟩ := by decide
    rw [names] at path
    have first := congrArg String.toList (List.cons.inj (Path.mk.inj path).2).1
    exact absurd (by simpa using first) given
  exact locateSource_canonical isProper_linkedWorkspace understood (by simp)

end Workspace

end SourceSpecs
