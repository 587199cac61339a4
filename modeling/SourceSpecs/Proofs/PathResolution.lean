import Mathlib.Logic.Relation
import SourceSpecs.FileSystem
import SourceSpecs.Proofs.Margin
/-!
Ways through a file system. A way goes up, goes down, or follows a link, step by step. Where no link
is met on the way to its own target every way ends, and it ends at a place that no link leads away
from.
-/
namespace SourceSpecs

def NullFree (t : List Char) : Prop := ∀ c ∈ t, Path.isNull c = false

instance : DecidablePred NullFree := fun t => List.decidableBAll _ t

theorem nullFree_iff {t : List Char} : NullFree t ↔ ¬ t.any Path.isNull = true := by
  simp [NullFree]

structure IsPathName (n : String) : Prop where
  some_character : n ≠ ""
  not_here : n ≠ "."
  no_slash : '/' ∉ n.toList
  null_free : NullFree n.toList

structure IsFileName (n : String) : Prop extends IsPathName n where
  not_above : n ≠ ".."

namespace Path

theorem isPathName_of_ofText {t n : String} (free : NullFree t.toList)
    (member : n ∈ (ofText t).names) : IsPathName n := by
  obtain ⟨some_character, not_here⟩ := not_mem_names_ofText member
  obtain ⟨p, piece, rfl⟩ := List.mem_map.1 (List.mem_filter.1 member).1
  refine ⟨some_character, not_here, ?_, ?_⟩
  · rw [String.toList_ofList]
    exact Text.not_mem_of_mem_pieces piece
  · rw [String.toList_ofList]
    exact fun c inside => free c (Text.mem_of_mem_pieces piece inside).1

def base (p : Path) (here : Place) : Place := if p.isAbsolute then [] else here

end Path

namespace FileSystem

abbrev Way := Place × List String

/-- One step of a way. -/
inductive Step (fs : FileSystem) : Way → Way → Prop where
  | up (here : Place) (names : List String) : Step fs (here, ".." :: names) (here.dropLast, names)
  | down {here : Place} {name : String} (names : List String) (other : name ≠ "..")
      (plain : fs.link? (here ++ [name]) = none) :
      Step fs (here, name :: names) (here ++ [name], names)
  | follow {here : Place} {name : String} {target : Path} (names : List String)
      (other : name ≠ "..") (link : fs.link? (here ++ [name]) = some target) :
      Step fs (here, name :: names) (target.base here, target.names ++ names)

def Leads (fs : FileSystem) : Way → Way → Prop := Relation.ReflTransGen fs.Step

def Meets (fs : FileSystem) (way : Way) (link : Place) : Prop :=
  ∃ here name names, fs.Leads way (here, name :: names) ∧ name ≠ ".." ∧ here ++ [name] = link ∧
    (fs.link? link).isSome = true

/-- No link is met on the way to its own target. -/
def Acyclic (fs : FileSystem) : Prop :=
  ∀ here name target, fs.link? (here ++ [name]) = some target →
    ¬ fs.Meets (target.base here, target.names) (here ++ [name])

def HasTargets (fs : FileSystem) : Prop :=
  ∀ place target, fs.link? place = some target → ∃ t, NullFree t.toList ∧ target = Path.ofText t

/-- A place that no link leads away from. -/
structure IsCanonical (fs : FileSystem) (place : Place) : Prop where
  names : ∀ n ∈ place, IsFileName n
  no_link : ∀ above, above <+: place → fs.link? above = none

/-- A way that has come to a canonical place, with names left that may stand in a path. -/
structure IsSound (fs : FileSystem) (way : Way) : Prop where
  canonical : fs.IsCanonical way.1
  names : ∀ n ∈ way.2, IsPathName n

variable {fs : FileSystem} {way way' : Way} {free : List Place} {here there : Place}
  {names : List String}

theorem link?_root : fs.link? [] = none := rfl

theorem isCanonical_root : fs.IsCanonical [] := by
  refine ⟨by simp, fun above front => ?_⟩
  rw [List.prefix_nil.1 front]
  exact link?_root

theorem IsCanonical.of_prefix {above : Place} (canonical : fs.IsCanonical here)
    (front : above <+: here) : fs.IsCanonical above :=
  ⟨fun n member => canonical.names n (front.subset member),
    fun q shorter => canonical.no_link q (shorter.trans front)⟩

theorem IsCanonical.append {name : String} (canonical : fs.IsCanonical here)
    (formed : IsFileName name) (plain : fs.link? (here ++ [name]) = none) :
    fs.IsCanonical (here ++ [name]) := by
  refine ⟨fun n member => ?_, fun above front => ?_⟩
  · rcases List.mem_append.1 member with before | last
    · exact canonical.names n before
    · exact List.mem_singleton.1 last ▸ formed
  · rcases List.prefix_concat_iff.1 front with rfl | shorter
    · exact plain
    · exact canonical.no_link above shorter

theorem IsCanonical.base (canonical : fs.IsCanonical here) (target : Path) :
    fs.IsCanonical (target.base here) := by
  rw [Path.base]
  split
  · exact isCanonical_root
  · exact canonical

theorem IsSound.target {name : String} {target : Path} (targets : fs.HasTargets)
    (sound : fs.IsSound (here, name :: names)) (link : fs.link? (here ++ [name]) = some target) :
    fs.IsSound (target.base here, target.names) := by
  obtain ⟨t, null_free, rfl⟩ := targets _ _ link
  exact ⟨sound.canonical.base _, fun n => Path.isPathName_of_ofText null_free⟩

theorem IsSound.step (targets : fs.HasTargets) (sound : fs.IsSound way) (step : fs.Step way way') :
    fs.IsSound way' := by
  cases step with
  | up here names =>
    refine ⟨sound.canonical.of_prefix here.dropLast_prefix, fun n member => ?_⟩
    exact sound.names n (List.mem_cons_of_mem _ member)
  | @down here name names other plain =>
    have formed : IsFileName name := ⟨sound.names name List.mem_cons_self, other⟩
    refine ⟨sound.canonical.append formed plain, fun n member => ?_⟩
    exact sound.names n (List.mem_cons_of_mem _ member)
  | @follow here name target names other link =>
    have to_target := sound.target targets link
    refine ⟨to_target.canonical, fun n member => ?_⟩
    rcases List.mem_append.1 member with inside | later
    · exact to_target.names n inside
    · exact sound.names n (List.mem_cons_of_mem _ later)

theorem IsSound.leads (targets : fs.HasTargets) (sound : fs.IsSound way)
    (leads : fs.Leads way way') : fs.IsSound way' := by
  induction leads with
  | refl => exact sound
  | tail _ step ih => exact ih.step targets step

theorem Step.append (step : fs.Step way way') (later : List String) :
    fs.Step (way.1, way.2 ++ later) (way'.1, way'.2 ++ later) := by
  cases step with
  | up here names => exact .up here (names ++ later)
  | down names other plain => exact .down (names ++ later) other plain
  | follow names other link =>
    rw [List.append_assoc]
    exact .follow (names ++ later) other link

theorem Leads.append (leads : fs.Leads way way') (later : List String) :
    fs.Leads (way.1, way.2 ++ later) (way'.1, way'.2 ++ later) := by
  induction leads with
  | refl => exact .refl
  | tail _ step ih => exact ih.tail (step.append later)

theorem Meets.append {link : Place} (meets : fs.Meets way link) (later : List String) :
    fs.Meets (way.1, way.2 ++ later) link := by
  obtain ⟨here, name, names, leads, rest⟩ := meets
  exact ⟨here, name, names ++ later, leads.append later, rest⟩

theorem Meets.after {link : Place} (leads : fs.Leads way way') (meets : fs.Meets way' link) :
    fs.Meets way link := by
  obtain ⟨here, name, names, leads', rest⟩ := meets
  exact ⟨here, name, names, leads.trans leads', rest⟩

theorem Step.towards (step : fs.Step way way') (canonical : fs.IsCanonical (way.1 ++ way.2)) :
    way'.1 ++ way'.2 = way.1 ++ way.2 := by
  cases step with
  | up here names => exact absurd rfl (canonical.names ".." (by simp)).not_above
  | down names other plain => simp
  | @follow here name target names other link =>
    have plain := canonical.no_link (here ++ [name]) ⟨names, by simp⟩
    rw [link] at plain
    cases plain

theorem Leads.towards (leads : fs.Leads way way') (canonical : fs.IsCanonical (way.1 ++ way.2)) :
    way'.1 ++ way'.2 = way.1 ++ way.2 := by
  induction leads with
  | refl => rfl
  | tail _ step ih => rw [step.towards (ih ▸ canonical), ih]

theorem acyclic_of_canonical (canonical : ∀ here name target,
    fs.link? (here ++ [name]) = some target → fs.IsCanonical (target.base here ++ target.names)) :
    fs.Acyclic := by
  rintro here name target link ⟨here', name', names, leads, _, same, _⟩
  have place := canonical here name target link
  have below : here' ++ [name'] <+: target.base here ++ target.names :=
    ⟨names, by rw [← leads.towards place, List.append_assoc]; rfl⟩
  have plain := place.no_link _ (same ▸ below)
  rw [link] at plain
  cases plain

section Walk

variable {name : String} {target : Path}

theorem walk_up : fs.walk free here (".." :: names) = fs.walk free here.dropLast names := by
  rw [walk, if_pos rfl]

theorem walk_down (other : name ≠ "..") (null_free : NullFree name.toList)
    (plain : fs.link? (here ++ [name]) = none) :
    fs.walk free here (name :: names) = fs.walk free (here ++ [name]) names := by
  rw [walk, if_neg other, if_neg (nullFree_iff.1 null_free), plain]

theorem walk_link (other : name ≠ "..") (null_free : NullFree name.toList)
    (link : fs.link? (here ++ [name]) = some target) (unmet : here ++ [name] ∈ free) :
    fs.walk free here (name :: names) =
      (fs.walk (free.erase (here ++ [name])) (target.base here) target.names).bind fun there =>
        fs.walk free there names := by
  rw [walk, if_neg other, if_neg (nullFree_iff.1 null_free), link]
  simp only [unmet, ↓reduceDIte, Path.base]
  split
  · rename_i there followed
    rw [followed]
    rfl
  · rename_i e failed
    rw [failed]
    rfl

/-- A walk ends where its way leads. -/
theorem leads_of_walk (walked : fs.walk free here names = .ok there) :
    fs.Leads (here, names) (there, []) := by
  -- the cases: no name, up, a null character, down, and a link that ends, fails, or is met again
  induction free, here, names using walk.induct fs generalizing there with
  | case1 free here =>
    rw [walk] at walked
    obtain rfl := Except.ok.inj walked
    exact .refl
  | case2 free here names ih =>
    rw [walk_up] at walked
    exact .head (.up here names) (ih walked)
  | case3 free here name names other null =>
    rw [walk, if_neg other, if_pos null] at walked
    cases walked
  | case4 free here name names other none_null plain ih =>
    rw [walk_down other (nullFree_iff.2 none_null) plain] at walked
    exact .head (.down names other plain) (ih walked)
  | case5 free here name names other none_null target link unmet half followed ih ih' =>
    rw [dite_eq_ite] at followed ih
    rw [walk_link other (nullFree_iff.2 none_null) link unmet, Path.base, followed] at walked
    have to_target : fs.Leads (target.base here, target.names ++ names) (half, names) :=
      (ih followed).append names
    exact .head (.follow names other link) (to_target.trans (ih' walked))
  | case6 free here name names other none_null target link unmet e failed =>
    rw [dite_eq_ite] at failed
    rw [walk_link other (nullFree_iff.2 none_null) link unmet, Path.base, failed] at walked
    cases walked
  | case7 free here name names other none_null target link met =>
    rw [walk, if_neg other, if_neg none_null, link] at walked
    simp only [met, ↓reduceDIte] at walked
    cases walked

/-- A walk that may follow every link it meets ends. -/
theorem exists_walk (targets : fs.HasTargets) (acyclic : fs.Acyclic)
    (sound : fs.IsSound (here, names))
    (may_follow : ∀ link, fs.Meets (here, names) link → link ∈ free) :
    ∃ there, fs.walk free here names = .ok there := by
  -- what is met later on a way is met on the way, so it may be followed as well
  induction free, here, names using walk.induct fs with
  | case1 free here => exact ⟨here, by rw [walk]⟩
  | case2 free here names ih =>
    have step : fs.Step (here, ".." :: names) (here.dropLast, names) := .up here names
    rw [walk_up]
    exact ih (sound.step targets step) fun link meets =>
      may_follow link (meets.after (.single step))
  | case3 free here name names other null =>
    exact absurd null (nullFree_iff.1 (sound.names name List.mem_cons_self).null_free)
  | case4 free here name names other none_null plain ih =>
    have step : fs.Step (here, name :: names) (here ++ [name], names) := .down names other plain
    rw [walk_down other (nullFree_iff.2 none_null) plain]
    exact ih (sound.step targets step) fun link meets =>
      may_follow link (meets.after (.single step))
  | case5 free here name names other none_null target link unmet half followed ih ih' =>
    rw [dite_eq_ite] at followed
    have step : fs.Step (here, name :: names) (target.base here, target.names ++ names) :=
      .follow names other link
    have to_half : fs.Leads (here, name :: names) (half, names) :=
      .head step ((leads_of_walk followed).append names)
    rw [walk_link other (nullFree_iff.2 none_null) link unmet, Path.base, followed]
    exact ih' (sound.leads targets to_half) fun link meets => may_follow link (meets.after to_half)
  | case6 free here name names other none_null target link unmet e failed ih =>
    rw [dite_eq_ite] at failed ih
    have step : fs.Step (here, name :: names) (target.base here, target.names ++ names) :=
      .follow names other link
    -- the link itself is not met on the way to its target
    have still_free (link' : Place) (meets : fs.Meets (target.base here, target.names) link') :
        link' ∈ free.erase (here ++ [name]) := by
      refine (List.mem_erase_of_ne fun same => ?_).2
        (may_follow link' ((meets.append names).after (.single step)))
      exact acyclic here name target link (same ▸ meets)
    obtain ⟨half, followed⟩ := ih (sound.target targets link) still_free
    rw [failed] at followed
    cases followed
  | case7 free here name names other none_null target link met =>
    exact absurd (may_follow _ ⟨here, name, names, .refl, other, rfl, by simp [link]⟩) met

theorem walk_canonical {behind : List String} (canonical : fs.IsCanonical (here ++ behind)) :
    fs.walk free here behind = .ok (here ++ behind) := by
  induction behind generalizing here with
  | nil => rw [walk, List.append_nil]
  | cons name behind ih =>
    have longer : here ++ name :: behind = (here ++ [name]) ++ behind := by simp
    have formed : IsFileName name := canonical.names name (by simp)
    have plain : fs.link? (here ++ [name]) = none :=
      canonical.no_link _ (longer ▸ List.prefix_append _ _)
    rw [walk_down formed.not_above formed.null_free plain, longer]
    exact ih (longer ▸ canonical)

end Walk

theorem mem_links {place : Place} (link : (fs.link? place).isSome = true) : place ∈ fs.links := by
  refine List.mem_filter.2 ⟨?_, link⟩
  have entry : (fs.get? place).isSome = true := by
    rw [link?] at link
    split at link
    · rename_i found
      rw [found]
      rfl
    · cases link
  have below : place ≠ [] := by
    rintro rfl
    cases link
  rw [get?, if_neg below] at entry
  obtain ⟨e, found⟩ := Option.isSome_iff_exists.1 entry
  obtain ⟨before, after, parts, _⟩ := List.lookup_eq_some_iff.1 found
  rw [parts]
  simp

/-- Every sound path leads to a place, and the place is canonical. -/
theorem exists_locate {directory : Place} {p : Path} (targets : fs.HasTargets)
    (acyclic : fs.Acyclic) (canonical : fs.IsCanonical directory) (formed : ∀ n ∈ p.names, IsPathName n) :
    ∃ place, fs.locate directory p = .ok place ∧ fs.IsCanonical place := by
  have sound : fs.IsSound (p.base directory, p.names) := ⟨canonical.base p, formed⟩
  have may_follow (link : Place) (meets : fs.Meets (p.base directory, p.names) link) :
      link ∈ fs.links := by
    obtain ⟨_, _, _, _, _, _, found⟩ := meets
    exact mem_links found
  obtain ⟨place, walked⟩ := exists_walk targets acyclic sound may_follow
  exact ⟨place, walked, (sound.leads targets (leads_of_walk walked)).canonical⟩

theorem locate_canonical {place : Place} (canonical : fs.IsCanonical place) (directory : Place) :
    fs.locate directory ⟨true, place⟩ = .ok place := walk_canonical canonical

end FileSystem

end SourceSpecs
