import Workyard.Migration.Error
import Workyard.Migration.Journal
import Workyard.Migration.Plan

/-!
# Applying a plan

First every file of the plan is staged: written under another name beside its own. Then the
files that move aside do so, and the staged files take their places. When anything fails, the
steps done are undone from the last one on, and what is still staged is removed.
-/

namespace Workyard.Migration

set_option autoImplicit false

open Disk

/-- What became of a file, or would. -/
inductive Effect where
  | written (path : FilePath)
  | renamed (source target : FilePath)
  | wouldWrite (path : FilePath)
  | wouldRename (source target : FilePath)
  deriving DecidableEq, Repr

def Step.effect : Step → Effect
  | renamed source target => .renamed source target
  | replaced path _ => .written path

/-- A file written beside its place. -/
structure Staged where
  path : FilePath
  temporary : FilePath
  /-- What the place held before, unless that moves aside. -/
  previous : Option String
  deriving DecidableEq, Repr

def temporaryOf (path : FilePath) : FilePath :=
  ⟨path.text ++ ".conduit.tmp"⟩

/-- What a file holds before the migration; none if it is not there or moves aside. -/
def previousOf (plan : Plan) (path : FilePath) : Work MigrationError (Option String) :=
  if plan.movesAside path then pure none
  else (some <$> Work.readText path).rescue fun fault =>
    if fault = .notFound then pure none else .fail (.io path fault)

def makeParent (path : FilePath) : Work MigrationError Unit :=
  match path.parent? with
  | some dir => (Work.makeDirectories dir).mapError (.io dir)
  | none => pure ()

/-- Writes a file under its other name, or leaves nothing of it. -/
def writeStaged (temporary : FilePath) (content : String) : Work MigrationError Unit :=
  (Work.writeText temporary content).rescue fun fault => do
    let _ ← Work.mend (·.removeFile temporary)
    .fail (.io temporary fault)

def stage (plan : Plan) (w : FileWrite) : Work MigrationError Staged := do
  let previous ← previousOf plan w.path
  let temporary := temporaryOf w.path
  makeParent temporary
  writeStaged temporary w.content
  .say .debug ("staged: " ++ temporary.text)
  pure ⟨w.path, temporary, previous⟩

def discard {ε : Type} : List Staged → Work ε Unit
  | [] => pure ()
  | f :: fs => do
    let _ ← Work.mend (·.removeFile f.temporary)
    discard fs

/-- Stages files after those in `staged`. When one fails nothing stays staged. -/
def stageAll (plan : Plan) (staged : List Staged) :
    List FileWrite → Work MigrationError (List Staged)
  | [] => pure staged
  | w :: ws => do
    let f ← (stage plan w).rescue fun e => do
      discard staged
      .fail e
    stageAll plan (staged ++ [f]) ws

/-- A failure after some steps were done. -/
structure Interruption where
  error : MigrationError
  journal : List Step

def commitRenames (journal : List Step) : List Rename → Work Interruption (List Step)
  | [] => pure journal
  | r :: rs => do
    let d ← Work.disk
    if d.has r.target then .say .warn ("replacing existing " ++ r.target.text)
    (Work.rename r.source r.target).mapError fun fault => ⟨.io r.source fault, journal⟩
    .say .info ("renamed: " ++ r.source.text ++ " -> " ++ r.target.text)
    commitRenames (journal ++ [.renamed r.source r.target]) rs

def commitFiles (journal : List Step) : List Staged → Work Interruption (List Step)
  | [] => pure journal
  | f :: fs => do
    (makeParent f.path).mapError fun e => ⟨e, journal⟩
    (Work.rename f.temporary f.path).mapError fun fault => ⟨.io f.path fault, journal⟩
    .say .info ("wrote: " ++ f.path.text)
    commitFiles (journal ++ [.replaced f.path f.previous]) fs

def commit (plan : Plan) (staged : List Staged) : Work Interruption (List Step) := do
  let journal ← commitRenames [] plan.renames
  commitFiles journal staged

def restore {α : Type} (staged : List Staged) (i : Interruption) : Work MigrationError α := do
  .say .warn ("migration failed, restoring " ++ i.journal.length.repr ++ " file(s): " ++
    i.error.text)
  rollBack i.journal
  discard staged
  .fail i.error

/-- What applying a plan would do. -/
def foreseen (plan : Plan) : List Effect :=
  plan.renames.map (fun r => .wouldRename r.source r.target) ++
    plan.writes.map (fun w => .wouldWrite w.path)

def Effect.foreseenText : Effect → String
  | wouldRename source target =>
    "[dry-run] would rename: " ++ source.text ++ " -> " ++ target.text
  | wouldWrite path => "[dry-run] would write: " ++ path.text
  | renamed source target => source.text ++ " -> " ++ target.text
  | written path => path.text

def announce {ε : Type} : List Effect → Work ε Unit
  | [] => pure ()
  | e :: es => do
    .say .info e.foreseenText
    announce es

/-- Applies a plan, all of it or nothing. A dry run only says what would be done. -/
def apply (plan : Plan) (dryRun : Bool) : Work MigrationError (List Effect) :=
  if dryRun then do
    announce (foreseen plan)
    pure (foreseen plan)
  else do
    let staged ← stageAll plan [] plan.writes
    let journal ← (commit plan staged).rescue (restore staged)
    pure (journal.map Step.effect)

end Workyard.Migration
