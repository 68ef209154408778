import Workyard.Disk.Basic
import Workyard.Project.Reader
import Workyard.Settings

/-!
# Workspaces

A workspace is a directory with project files anywhere below it. They are found without a
look into ignored directories, read in the order of their paths, and kept in the order of the
names of their projects, which must differ.
-/

namespace Workyard

set_option autoImplicit false

structure Workspace where
  root : FilePath
  projects : List Project

namespace Workspace

def projectFile : String := "project.json"

/-- Directories that are never searched. -/
def alwaysIgnored : List String := ["node_modules", "dist", ".git", "tmp"]

def isIgnored (ignore : List String) (name : String) : Bool :=
  alwaysIgnored.contains name || ignore.contains name

/-- The path of what names lead to from another path. -/
def below (root : FilePath) (l : Disk.Location) : FilePath :=
  l.foldl FilePath.child root

def isProjectFile (found : Disk.Location × Disk.Node) : Bool :=
  match found with
  | (l, .file _) => l.getLast? == some projectFile
  | _ => false

/-- The project files below a directory, in no particular order. -/
def projectFiles (ignore : List String) (root : FilePath) (e : Disk.Entry) : List FilePath :=
  ((e.walk (!isIgnored ignore ·)).filter isProjectFile).map fun found => below root found.1

/-- The paths of all project files of a workspace, sorted by components. -/
def discover (d : Disk) (root : FilePath) (ignore : List String) :
    Except LoadError (List FilePath) :=
  match d.entry root with
  | .ok (.directory es) =>
    .ok ((projectFiles ignore root (.directory es)).mergeSort FilePath.le)
  | _ => .error (.workspaceNotFound root)

/-- A directory relative to the workspace, with a dot for the workspace itself. -/
def relativeRoot (root dir : FilePath) : String :=
  let parts := (FilePath.relativeTo root dir).components.map (·.text)
  if parts.isEmpty then "." else String.intercalate "/" parts

/-- Reads the project of a file. A project without a name is called after its directory. -/
def loadProject (d : Disk) (root path : FilePath) : Logged LoadError Project := do
  let text ← .ofExcept ((d.readText path).mapError (.io path))
  let dir := path.parent?.getD root
  Project.parse text path (dir.fileName?.getD "") (relativeRoot root dir)

def loadedMessage (p : Project) (path : FilePath) : String :=
  "loaded project '" ++ p.name ++ "' (" ++ p.targets.length.repr ++ " targets) from " ++ path.text

/-- Reads the projects of the files after those in `loaded`. -/
def loadAll (d : Disk) (root : FilePath) (loaded : List Project) :
    List FilePath → Logged LoadError (List Project)
  | [] => pure loaded
  | path :: paths => do
    let p ← loadProject d root path
    match loaded.find? (·.name = p.name) with
    | some earlier => .fail (.duplicateProject p.name (earlier.source.getD ⟨""⟩) path)
    | none =>
      .debug (loadedMessage p path)
      loadAll d root (loaded ++ [p]) paths

def load (d : Disk) (root : FilePath) (ignore : List String) : Logged LoadError Workspace := do
  let paths ← .ofExcept (discover d root ignore)
  let projects ← loadAll d root [] paths
  pure ⟨root, projects.mergeSort fun p q => p.name ≤ q.name⟩

def project? (w : Workspace) (name : String) : Option Project :=
  w.projects.find? (·.name = name)

end Workspace

end Workyard
