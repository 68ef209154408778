import Workyard.Disk.Work
import Workyard.Text.Quoted

/-!
# The journal of a migration

The steps that were done, in order, with what it takes to undo each of them. They are undone
from the last one on; a step that cannot be undone does not keep those before it from being.
-/

namespace Workyard.Migration

set_option autoImplicit false

open Disk

inductive Step where
  | renamed (source target : FilePath)
  /-- A file was written over what it held before, or where there was none. -/
  | replaced (path : FilePath) (previous : Option String)
  deriving DecidableEq, Repr

namespace Step

def undo : Step → Disk → Except Fault Disk
  | renamed source target, d => d.rename target source
  | replaced path (some text), d => d.writeFile path (.text text)
  | replaced path none, d => d.removeFile path

def text : Step → String
  | renamed source target =>
    "Renamed \x7b from: " ++ Text.quote source.text ++ ", to: " ++ Text.quote target.text ++ " \x7d"
  | replaced path previous =>
    "Replaced \x7b path: " ++ Text.quote path.text ++ ", previous: " ++
      (match previous with
        | some t => "Some(" ++ Text.quote t ++ ")"
        | none => "None") ++ " \x7d"

end Step

def undoStep {ε : Type} (s : Step) : Work ε Unit := do
  match ← Work.mend s.undo with
  | none => .say .debug ("undone: " ++ s.text)
  | some fault => .say .warn ("could not undo " ++ s.text ++ ": " ++ fault.message)

/-- Undoes steps that are listed from the last one on. -/
def undoAll {ε : Type} : List Step → Work ε Unit
  | [] => pure ()
  | s :: ss => do
    undoStep s
    undoAll ss

def rollBack {ε : Type} (journal : List Step) : Work ε Unit :=
  undoAll journal.reverse

end Workyard.Migration
