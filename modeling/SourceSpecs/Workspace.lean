import SourceSpecs.FileSystem
/-!
A workspace: files, the directory one works in, and an environment. Source files are named by paths
from the root, from a home directory, or from the project.
-/
namespace SourceSpecs

structure Workspace where
  files : FileSystem := {}
  directory : Place := []
  environment : Environment := {}

namespace Workspace

def locate (w : Workspace) (p : Path) : Except PathError Place := w.files.locate w.directory p

/-- The path to a project. Without one it is that of the working directory. -/
def projectPath (w : Workspace) (project : Option String) : Except PathError Path :=
  match project with
  | none | some "" => .ok ⟨true, w.directory⟩
  | some t => (Path.ofText t).expandHome w.environment

/-- The place of the source file that a path names. The project counts only where the path does not
    start from the root. -/
def locateSource (w : Workspace) (path : String) (project : Option String) :
    Except PathError Place :=
  match (Path.ofText path).expandHome w.environment with
  | .error e => .error e
  | .ok p =>
    if p.isAbsolute then w.locate p
    else match w.projectPath project with
      | .error e => .error e
      | .ok base => w.locate (base.join p)

def edit (w : Workspace) (path : String) (change : FileSystem → Place → FileSystem) : Workspace :=
  match w.locate (Path.ofText path) with
  | .ok place => { w with files := change w.files place }
  | .error _ => w

/-- Changes the files at the name that a path ends in, be it that of a link. -/
def editName (w : Workspace) (path : String) (change : FileSystem → Place → FileSystem) : Workspace :=
  let p := Path.ofText path
  match w.locate { p with names := p.names.dropLast } with
  | .ok place => { w with files := change w.files (place ++ p.names.getLast?.toList) }
  | .error _ => w

def write (w : Workspace) (path : String) (bytes : List UInt8) : Workspace :=
  w.edit path fun fs place => fs.put place (.file bytes)

def makeDirectory (w : Workspace) (path : String) : Workspace :=
  w.edit path FileSystem.makeDirectory

def remove (w : Workspace) (path : String) : Workspace := w.editName path FileSystem.remove

def link (w : Workspace) (path target : String) : Workspace :=
  w.editName path fun fs place => fs.put place (.link (Path.ofText target))

def setVariable (w : Workspace) (name value : String) : Workspace :=
  { w with environment := w.environment.set name value }

def unsetVariable (w : Workspace) (name : String) : Workspace :=
  { w with environment := w.environment.unset name }

end Workspace

end SourceSpecs
