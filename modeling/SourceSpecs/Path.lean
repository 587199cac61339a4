import SourceSpecs.Environment
import SourceSpecs.Text.Pieces
/-!
Paths as they are written, and places, which are the names on the way down from the root.
-/
namespace SourceSpecs

abbrev Place := List String

def Place.text (p : Place) : String := "/" ++ "/".intercalate p

/-- The ending of a name from its last dot on. A dot that comes first or last starts none. -/
def suffix (name : String) : String :=
  let back := name.toList.reverse
  let ending := back.takeWhile (· != '.')
  let stem := (back.dropWhile (· != '.')).drop 1
  if ending = [] ∨ stem = [] then "" else String.ofList ('.' :: ending.reverse)

/-- A written path. Among its names are neither empty ones nor `.`. -/
structure Path where
  isAbsolute : Bool
  names : List String
  deriving DecidableEq, Repr

inductive PathError where
  | unknownHome
  | nullCharacter
  | linkLoop (link : Place)
  deriving DecidableEq, Repr

def PathError.message : PathError → String
  | .unknownHome => "Could not determine home directory."
  | .nullCharacter => "embedded null byte"
  | .linkLoop link => "Symlink loop from '" ++ link.text ++ "'"

namespace Path

def ofText (t : String) : Path where
  isAbsolute := t.toList.head? == some '/'
  names := ((Text.pieces '/' t.toList).map String.ofList).filter fun n => n != "" && n != "."

def join (base p : Path) : Path :=
  if p.isAbsolute then p else ⟨base.isAbsolute, base.names ++ p.names⟩

/-- A home directory as a path. One that leads to a home itself is none, and an empty one is the
    root. -/
def ofHome? (home : String) : Option Path :=
  match home.toList with
  | [] => some ⟨true, []⟩
  | '~' :: _ => none
  | _ => some (ofText home)

def isNull (c : Char) : Bool := c.toNat == 0

def expandHome (e : Environment) (p : Path) : Except PathError Path :=
  match p.isAbsolute, p.names with
  | false, first :: rest =>
    match first.toList with
    | '~' :: account =>
      if account.any isNull then .error .nullCharacter
      else match (e.home? (String.ofList account)).bind ofHome? with
        | some home => .ok ⟨home.isAbsolute, home.names ++ rest⟩
        | none => .error .unknownHome
    | _ => .ok p
  | _, _ => .ok p

theorem not_mem_names_ofText {t n : String} (h : n ∈ (ofText t).names) : n ≠ "" ∧ n ≠ "." := by
  simp only [ofText, List.mem_filter, Bool.and_eq_true, bne_iff_ne] at h
  exact h.2

end Path

end SourceSpecs
