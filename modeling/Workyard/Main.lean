import Workyard.Command.Run

/-!
# The program

Reads the directory tree of the workspace that the command line names, does what it asks for,
and brings the changes to the disk. Installed packages and the history of the repository are
not read.
-/

namespace Workyard.Main

set_option autoImplicit false

open Disk

/-- Directories that are left alone. -/
def unread : List String := ["node_modules", ".git"]

/-- The tree at a path of the machine. -/
partial def readTree (path : String) : IO Entry := do
  let mut entries : List (String × Entry) := []
  let here := (← IO.currentDir) / path
  for e in ← here.readDir do
    let below := path ++ "/" ++ e.fileName
    if ← e.path.isDir then
      unless unread.contains e.fileName do
        entries := (e.fileName, ← readTree below) :: entries
    else
      entries := (e.fileName, .file (.ofBytes (← IO.FS.readBinFile e.path))) :: entries
  return .directory entries

/-- Puts a tree at a location, below directories that hold nothing else. -/
def under : Location → Entry → Entry
  | [], e => e
  | name :: names, e => .directory [(name, under names e)]

/-- A disk with the workspace alone, seen from the current directory. -/
def diskWith (here : Location) (workspace : Location) (e : Option Entry) : Disk :=
  let bare : Entry := under here (.directory [])
  match e with
  | none => ⟨bare, here⟩
  | some e =>
    if workspace.isPrefixOf here then ⟨under workspace e, here⟩
    else
      let d : Disk := ⟨bare, here⟩
      let d := (d.makeDirectories ⟨"/" ++ String.intercalate "/" workspace⟩).1
      ⟨d.root.put workspace e, here⟩

def bytesOf : Content → ByteArray
  | .text s => s.toUTF8
  | .raw bytes => ⟨bytes.toArray⟩

def textOf (l : Location) : String :=
  "/" ++ String.intercalate "/" l

/-- Writes what is new below a location, directories before what they hold. -/
def writeChanges (before after : List (Location × Node)) : IO Unit := do
  for (l, n) in after do
    unless before.contains (l, n) do
      match n with
      | .directory => IO.FS.createDirAll (textOf l)
      | .file content => IO.FS.writeBinFile (textOf l) (bytesOf content)
  for (l, n) in before do
    if n != .directory && !after.any (·.1 == l) then IO.FS.removeFile (textOf l)

def showLine (l : Log.Line) : IO Unit :=
  match l.level with
  | .warn => IO.eprintln ("WARN " ++ l.text)
  | _ => pure ()

/-- Whether colours are forced, or else wanted and the output a terminal. -/
def styleOf : IO Command.Style := do
  let forced := (← IO.getEnv "CLICOLOR_FORCE").any (· != "0")
  let refused := (← IO.getEnv "NO_COLOR").isSome || (← IO.getEnv "CLICOLOR") == some "0"
  if forced then return .coloured
  else if refused then return .plain
  else return if ← (← IO.getStdout).isTty then .coloured else .plain

/-- The names on the way to a path of the machine. -/
def locationOf (path : String) : Location :=
  ((Text.splitAt '/' path.toList).filter (!·.isEmpty)).map String.ofList

/-- The workspace as the machine knows it, if it is a directory. -/
def realWorkspace (words : List String) : IO (Option String) := do
  match Command.parseArguments words with
  | .run workspace _ =>
    let path := (← IO.currentDir) / workspace
    if ← path.isDir then return some (← IO.FS.realPath path).toString else return none
  | _ => return none

end Workyard.Main

open Workyard Workyard.Main in
def main (words : List String) : IO UInt32 := do
  let here := locationOf (← IO.currentDir).toString
  let workspace ← realWorkspace words
  let tree ← workspace.mapM readTree
  let place := locationOf (workspace.getD "/")
  let d := diskWith here place tree
  let ending := Command.run (← styleOf) words d
  writeChanges (d.root.walk fun _ => true) (ending.disk.root.walk fun _ => true)
  ending.log.forM showLine
  IO.print ending.out
  IO.eprint ending.err
  return ending.code.toUInt32
