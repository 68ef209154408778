import Workyard.Diff.Unified
import Workyard.Migration.Error
import Workyard.Migration.Plan
import Workyard.Text.Tidy

/-!
# Previews

What applying a plan would change, compared with the disk as it is: files that move aside, and
the differences of the files that are written. A file that stays as it is has no entry.
-/

namespace Workyard.Migration

set_option autoImplicit false

structure FileDiff where
  path : FilePath
  diff : String
  deriving DecidableEq, Repr

/-- A path relative to the workspace, with forward slashes. -/
def relativeText (root path : FilePath) : String :=
  String.ofList ((FilePath.relativeTo root path).text.toList.map fun c => if c = '\\' then '/' else c)

def renameDiff (root : FilePath) (r : Rename) : FileDiff :=
  ⟨r.target, "rename from " ++ relativeText root r.source ++ "\nrename to " ++
    relativeText root r.target ++ "\n"⟩

/-- What a file that is to be written holds before; nothing if it moves aside. -/
def contentBefore (d : Disk) (plan : Plan) (path : FilePath) : Except MigrationError String :=
  if plan.movesAside path then .ok ""
  else
    match d.readText path with
    | .ok text => .ok (Text.withJoinedLineEnds text)
    | .error .notFound => .ok ""
    | .error fault => .error (.io path fault)

/-- The difference that a write makes, if it makes one. -/
def writeDiff? (d : Disk) (plan : Plan) (w : FileWrite) :
    Except MigrationError (Option FileDiff) :=
  match contentBefore d plan w.path with
  | .error e => .error e
  | .ok before =>
    let after := Text.withJoinedLineEnds w.content
    if before = after then .ok none
    else
      let name := relativeText plan.root w.path
      let oldName := if before.isEmpty then "/dev/null" else "a/" ++ name
      .ok (some ⟨w.path, Diff.unified oldName ("b/" ++ name) before after⟩)

def writeDiffs (d : Disk) (plan : Plan) : List FileWrite → Except MigrationError (List FileDiff)
  | [] => .ok []
  | w :: ws =>
    match writeDiff? d plan w with
    | .error e => .error e
    | .ok diff => (writeDiffs d plan ws).map (diff.toList ++ ·)

def Plan.diffs (d : Disk) (plan : Plan) : Except MigrationError (List FileDiff) :=
  (writeDiffs d plan plan.writes).map (plan.renames.map (renameDiff plan.root) ++ ·)

end Workyard.Migration
