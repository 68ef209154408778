import Workyard.Command.Arguments
import Workyard.Command.Report

/-!
# Commands

A command works on a disk and prints. It ends with the code 0 when it did what it was asked
for, with 1 when that failed, and with 2 when the command line makes no sense.
-/

namespace Workyard.Command

set_option autoImplicit false

structure Ending where
  code : Nat
  out : String
  err : String
  log : List Log.Line
  disk : Disk

def programName : String := "conduit"

def versionText : String := line (programName ++ " 0.1.0")

def usageText : String := lines [
  "Usage: conduit [-w <root>] <command>",
  "",
  "  projects [--json]",
  "  targets <project> [--json]",
  "  migrate [--project <name>] [--skip-format] [--dry-run]",
  "  diff [--project <name>] [--skip-format]"]

structure Failure where
  text : String
  causes : List String

def loadWorkspace (d : Disk) (root : FilePath) : Logged Failure Workspace := do
  let settings ← .ofExcept ((Settings.load d root).mapError fun e =>
    ⟨"failed to read config in " ++ root.text, e.chain⟩)
  (Workspace.load d root settings.ignore).mapError fun e =>
    ⟨"failed to load workspace at " ++ root.text, e.chain⟩

def showProjects (d : Disk) (root : FilePath) (json : Bool) : Logged Failure String := do
  let w ← loadWorkspace d root
  pure (projectsText w json)

def showTargets (style : Style) (d : Disk) (root : FilePath) (project : String) (json : Bool) :
    Logged Failure String := do
  let w ← loadWorkspace d root
  match w.project? project with
  | some p => pure (targetsText style p json)
  | none => .fail ⟨"project '" ++ project ++ "' not found in " ++ root.text, []⟩

def showDiff (d : Disk) (root : FilePath) (request : Migration.Request) :
    Logged Failure String := do
  let diffs ← (Migration.preview d root request).mapError fun e =>
    ⟨"diff failed in " ++ root.text, e.chain⟩
  pure (diffText diffs)

def migrate (root : FilePath) (request : Migration.Request) (dryRun : Bool) :
    Disk.Work Failure String := do
  let report ← (Migration.run root request dryRun).mapError fun e =>
    ⟨"migration failed in " ++ root.text, e.chain⟩
  pure (migrationText root report dryRun)

def perform (style : Style) (root : FilePath) (t : Task) : Disk.Work Failure String := do
  let d ← Disk.Work.disk
  match t with
  | .projects json => .ofLogged (showProjects d root json)
  | .targets project json => .ofLogged (showTargets style d root project json)
  | .diff project skipFormat => .ofLogged (showDiff d root ⟨project, skipFormat⟩)
  | .migrate project skipFormat dryRun => migrate root ⟨project, skipFormat⟩ dryRun

/-- Does what a command line asks for. -/
def run (style : Style) (words : List String) (d : Disk) : Ending :=
  match parseArguments words with
  | .version => ⟨0, versionText, "", [], d⟩
  | .help => ⟨0, usageText, "", [], d⟩
  | .misuse => ⟨2, "", usageText, [], d⟩
  | .run workspace task =>
    match (perform style ⟨workspace⟩ task).run (.start d) with
    | (.ok out, s) => ⟨0, out, "", s.lines, s.disk⟩
    | (.error e, s) => ⟨1, "", failureText e.text e.causes, s.lines, s.disk⟩

end Workyard.Command
