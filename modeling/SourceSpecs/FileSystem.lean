import SourceSpecs.Path
/-!
File systems of directories, files and symbolic links, and the place that a path leads to. Links and
`..` are followed where they stand; past a name that does not exist the rest of a path is taken as
written.
-/
namespace SourceSpecs

inductive Entry where
  | directory
  | file (bytes : List UInt8)
  | link (target : Path)
  deriving DecidableEq, Repr

/-- What there is at each place. The root is always a directory. -/
structure FileSystem where
  entries : List (Place × Entry) := []

namespace FileSystem

def get? (fs : FileSystem) (p : Place) : Option Entry :=
  if p = [] then some .directory else fs.entries.lookup p

def file? (fs : FileSystem) (p : Place) : Option (List UInt8) :=
  match fs.get? p with
  | some (.file bytes) => some bytes
  | _ => none

def link? (fs : FileSystem) (p : Place) : Option Path :=
  match fs.get? p with
  | some (.link target) => some target
  | _ => none

def links (fs : FileSystem) : List Place := (fs.entries.map (·.1)).filter fun p => (fs.link? p).isSome

/-- The place that the names lead to from `here`. Only links in `free` are followed: a link is not
    followed again on the way to its own target. -/
def walk (fs : FileSystem) (free : List Place) (here : Place) :
    List String → Except PathError Place
  | [] => .ok here
  | name :: names =>
    if name = ".." then fs.walk free here.dropLast names
    else if name.toList.any Path.isNull then .error .nullCharacter
    else match fs.link? (here ++ [name]) with
      | none => fs.walk free (here ++ [name]) names
      | some target =>
        if _ : here ++ [name] ∈ free then
          match fs.walk (free.erase (here ++ [name])) (if target.isAbsolute then [] else here)
            target.names with
          | .ok there => fs.walk free there names
          | .error e => .error e
        else .error (.linkLoop (here ++ [name]))
termination_by names => (free.length, names.length)
decreasing_by
  · exact Prod.Lex.right _ (by simp)
  · exact Prod.Lex.right _ (by simp)
  · refine Prod.Lex.left _ _ ?_
    have := List.length_pos_of_mem ‹here ++ [name] ∈ free›
    rw [List.length_erase_of_mem ‹here ++ [name] ∈ free›]
    omega
  · exact Prod.Lex.right _ (by simp)

def locate (fs : FileSystem) (directory : Place) (p : Path) : Except PathError Place :=
  fs.walk fs.links (if p.isAbsolute then [] else directory) p.names

def insert (fs : FileSystem) (p : Place) (e : Entry) : FileSystem :=
  ⟨(p, e) :: fs.entries.filter (·.1 != p)⟩

def makeDirectory (fs : FileSystem) (p : Place) : FileSystem :=
  (List.range p.length).foldl (fun fs n =>
    let above := p.take (n + 1)
    if (fs.get? above).isSome then fs else fs.insert above .directory) fs

def put (fs : FileSystem) (p : Place) (e : Entry) : FileSystem :=
  (fs.makeDirectory p.dropLast).insert p e

def remove (fs : FileSystem) (p : Place) : FileSystem :=
  ⟨fs.entries.filter fun (q, _) => !p.isPrefixOf q⟩

theorem lookup_filter_ne {p q : Place} (h : q ≠ p) (entries : List (Place × Entry)) :
    (entries.filter (·.1 != p)).lookup q = entries.lookup q := by
  induction entries with
  | nil => rfl
  | cons e rest ih =>
    obtain ⟨place, entry⟩ := e
    by_cases same : place = p
    · simp [same, ih, List.lookup_cons, beq_false_of_ne h]
    · simp [same, ih, List.lookup_cons]

theorem get?_insert {fs : FileSystem} {p : Place} {e : Entry} (h : p ≠ []) (q : Place) :
    (fs.insert p e).get? q = if q = p then some e else fs.get? q := by
  by_cases same : q = p
  · simp [get?, insert, same, h]
  · simp [get?, insert, List.lookup_cons, same, beq_false_of_ne same, lookup_filter_ne same]

end FileSystem

end SourceSpecs
