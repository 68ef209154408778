import Workyard.Disk.Tree
import Workyard.Path.FilePath

/-!
# The disk

A tree of directories with a current directory, and the operations on it by path. A path is
followed segment by segment, so that every segment before the last one must be a directory
that is there; no entry leads anywhere else.
-/

namespace Workyard

set_option autoImplicit false

structure Disk where
  root : Disk.Entry
  /-- The location of the current directory. -/
  here : Disk.Location

namespace Disk

/-- One segment further on from a location, which must be a directory. -/
def step (d : Disk) (l : Location) (segment : List Char) : Except Fault Location :=
  match d.root.find? l with
  | none => .error .notFound
  | some (.file _) => .error .notADirectory
  | some (.directory _) =>
    if segment = [] ∨ segment = ['.'] then .ok l
    else if segment = ['.', '.'] then .ok l.dropLast
    else .ok (l ++ [String.ofList segment])

def follow (d : Disk) : Location → List (List Char) → Except Fault Location
  | l, [] => .ok l
  | l, s :: ss =>
    match d.step l s with
    | .ok l => follow d l ss
    | .error f => .error f

/-- The location that a path means. What stands there need not exist, but its directory
does. -/
def locate (d : Disk) (p : FilePath) : Except Fault Location :=
  if p.text.isEmpty then .error .notFound
  else d.follow (if p.isAbsolute then [] else d.here) (p.segments.map (·.text))

def at? (d : Disk) (l : Location) : Option Node :=
  d.root.at? l

def entry (d : Disk) (p : FilePath) : Except Fault Entry :=
  match d.locate p with
  | .error f => .error f
  | .ok l =>
    match d.root.find? l with
    | some e => .ok e
    | none => .error .notFound

def has (d : Disk) (p : FilePath) : Bool :=
  (d.entry p).toOption.isSome

def isFile (d : Disk) (p : FilePath) : Bool :=
  ((d.entry p).toOption.map (!·.isDirectory)).getD false

def isDirectory (d : Disk) (p : FilePath) : Bool :=
  ((d.entry p).toOption.map (·.isDirectory)).getD false

def readText (d : Disk) (p : FilePath) : Except Fault String :=
  match d.entry p with
  | .error f => .error f
  | .ok (.directory _) => .error .isADirectory
  | .ok (.file (.raw _)) => .error .notText
  | .ok (.file (.text s)) => .ok s

def put (d : Disk) (l : Location) (e : Entry) : Disk :=
  { d with root := d.root.put l e }

def erase (d : Disk) (l : Location) : Disk :=
  { d with root := d.root.erase l }

def writeFile (d : Disk) (p : FilePath) (content : Content) : Except Fault Disk :=
  match d.locate p with
  | .error f => .error f
  | .ok l =>
    match d.root.find? l with
    | some (.directory _) => .error .isADirectory
    | _ => .ok (d.put l (.file content))

def removeFile (d : Disk) (p : FilePath) : Except Fault Disk :=
  match d.locate p with
  | .error f => .error f
  | .ok l =>
    match d.root.find? l with
    | none => .error .notFound
    | some (.directory _) => .error .isADirectory
    | some (.file _) => .ok (d.erase l)

def makeDirectory (d : Disk) (p : FilePath) : Except Fault Disk :=
  match d.locate p with
  | .error f => .error f
  | .ok l =>
    match d.root.find? l with
    | some _ => .error .alreadyExists
    | none => .ok (d.put l (.directory []))

/-- Makes a directory after its parent; one that is there already will do. -/
def makeOrKeep (d : Disk) (p : FilePath) : Disk × Option Fault :=
  match d.makeDirectory p with
  | .ok d => (d, none)
  | .error f => (d, if d.isDirectory p then none else some f)

/-- Makes a directory and those above it that are missing, at most `fuel` of them. -/
def makeAll : Nat → FilePath → Disk → Disk × Option Fault
  | 0, _, d => (d, none)
  | fuel + 1, p, d =>
    if p.text.isEmpty then (d, none)
    else
      match d.makeDirectory p with
      | .ok d => (d, none)
      | .error .notFound =>
        match p.parent? with
        | none => (d, some .notFound)
        | some q =>
          match makeAll fuel q d with
          | (d, some f) => (d, some f)
          | (d, none) => d.makeOrKeep p
      | .error f => (d, if d.isDirectory p then none else some f)

/-- Makes a directory and those above it that are missing. What was made before a fault
stays. -/
def makeDirectories (d : Disk) (p : FilePath) : Disk × Option Fault :=
  makeAll (p.segments.length + 1) p d

/-- Moves an entry onto a location. A file may replace a file, and a directory an empty
one. -/
def move (d : Disk) (source target : Location) : Except Fault Disk :=
  match d.root.find? source with
  | none => .error .notFound
  | some e =>
    if source = target then .ok d
    else if source.isPrefixOf target then .error .invalid
    else if target.isPrefixOf source then .error .notEmpty
    else
      match e, d.root.find? target with
      | .file _, some (.directory _) => .error .isADirectory
      | .directory _, some (.file _) => .error .notADirectory
      | .directory _, some (.directory (_ :: _)) => .error .notEmpty
      | e, _ => .ok ((d.erase source).put target e)

/-- Moves what a path means to another path. A slash at the end of either asks for a
directory, which the target need not be yet. -/
def rename (d : Disk) (source target : FilePath) : Except Fault Disk :=
  match d.locate source.trimSlash, d.locate target.trimSlash with
  | .error f, _ => .error f
  | _, .error f => .error f
  | .ok a, .ok b =>
    match d.root.find? a with
    | some (.file _) =>
      if source.endsInSlash || target.endsInSlash then .error .notADirectory else d.move a b
    | _ => d.move a b

namespace Entry

mutual

/-- All that is below an entry, each with the names that lead there. Entries whose names do
not pass `enter` are left out with all that is below them. -/
def walk (enter : String → Bool) : Entry → List (Location × Node)
  | .file _ => []
  | .directory es => walkAll enter es

def walkAll (enter : String → Bool) : List (String × Entry) → List (Location × Node)
  | [] => []
  | (name, e) :: es =>
    (if enter name then
      ([name], e.node) :: (walk enter e).map fun below => (name :: below.1, below.2)
    else []) ++ walkAll enter es

end

end Entry

end Disk

end Workyard
