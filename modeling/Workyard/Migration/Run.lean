import Workyard.Migration.Apply
import Workyard.Migration.Planning
import Workyard.Migration.Preview

/-!
# Running a migration

A workspace is loaded, its migration is planned, and the plan is applied or shown. Nothing is
written when planning fails.
-/

namespace Workyard.Migration

set_option autoImplicit false

open Disk

structure Report where
  migrated : List MigratedTarget
  skipped : List SkippedTarget
  effects : List Effect

def repeatedMessage (t : MigratedTarget) : String :=
  t.project ++ ":" ++ t.target ++
    " calls withNx more than once; only the first call was migrated"

/-- Warns of configs that call the first marker more than once. -/
def warnOfRepeats {ε : Type} : List MigratedTarget → Work ε Unit
  | [] => pure ()
  | t :: ts => do
    if t.multipleMarkers then .say .warn (repeatedMessage t)
    warnOfRepeats ts

def run (root : FilePath) (request : Request) (dryRun : Bool) : Work MigrationError Report := do
  let d ← Work.disk
  let plan ← .ofLogged (planAt d root request)
  warnOfRepeats plan.migrated
  let effects ← apply plan dryRun
  pure ⟨plan.migrated, plan.skipped, effects⟩

/-- Plans the migration of the workspace at a root and shows what it would change. -/
def preview (d : Disk) (root : FilePath) (request : Request) :
    Logged MigrationError (List FileDiff) := do
  let plan ← planAt d root request
  .ofExcept (plan.diffs d)

end Workyard.Migration
