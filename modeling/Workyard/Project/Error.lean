import Workyard.Disk.Fault
import Workyard.Json.Reader
import Workyard.Path.FilePath

/-!
# Faults of a workspace

Why a workspace could not be loaded.
-/

namespace Workyard

set_option autoImplicit false

inductive LoadError where
  | io (path : FilePath) (fault : Disk.Fault)
  /-- A project file that is not what it should be. -/
  | parse (path : FilePath) (fault : Json.Fault)
  /-- A settings file that is not what it should be. -/
  | settings (path : FilePath)
  | workspaceNotFound (path : FilePath)
  | duplicateTarget (project target : String)
  /-- Two project files give the same name. -/
  | duplicateProject (name : String) (first second : FilePath)
  deriving DecidableEq, Repr

namespace LoadError

/-- The text of the fault, without what a cause below it would add. -/
def message : LoadError → String
  | io path _ => "I/O error at " ++ path.text
  | parse path _ => "failed to parse project at " ++ path.text
  | settings path => "failed to parse config at " ++ path.text
  | workspaceNotFound path => "workspace not found at " ++ path.text
  | duplicateTarget project target =>
    "project '" ++ project ++ "' declares target '" ++ target ++ "' more than once"
  | duplicateProject name first second =>
    "project '" ++ name ++ "' is declared by both " ++ first.text ++ " and " ++ second.text

def cause? : LoadError → Option String
  | io _ fault => some fault.message
  | parse _ fault => some fault.message
  | settings _ => some "invalid settings"
  | _ => none

def text (e : LoadError) : String :=
  match e.cause? with
  | some c => e.message ++ ": " ++ c
  | none => e.message

def chain (e : LoadError) : List String :=
  e.text :: e.cause?.toList

end LoadError

end Workyard
