import Workyard.Options.Error
import Workyard.Project.Error
import Workyard.Webpack.Renderer

/-!
# Faults of a migration
-/

namespace Workyard.Migration

set_option autoImplicit false

inductive MigrationError where
  | render (error : Webpack.RenderError)
  | load (error : LoadError)
  | options (path : FilePath) (error : Options.OptionError)
  | io (path : FilePath) (fault : Disk.Fault)
  /-- A project file that was readable is no longer. -/
  | json (path : FilePath) (fault : Json.Fault)
  | noProjectFile (project : String)
  | moduleFederation (project : String)
  | nothingToMigrate
  deriving DecidableEq, Repr

namespace MigrationError

/-- The text of the fault, without what a cause below it would add. -/
def message : MigrationError → String
  | render e => "render error: " ++ e.message
  | load e => "registry error: " ++ e.message
  | options path e => "cannot read options in " ++ path.text ++ ": " ++ e.message
  | io path _ => "I/O error at " ++ path.text
  | json path _ => "JSON error in " ++ path.text
  | noProjectFile project => "project '" ++ project ++ "' has no project.json to update"
  | moduleFederation project =>
    "project '" ++ project ++
      "' uses Module Federation, which cannot be migrated to the webpack plugin yet"
  | nothingToMigrate => "could not find any projects to migrate"

def causes : MigrationError → List String
  | render e => e.chain
  | load e => e.chain
  | options _ e => [e.message]
  | io _ fault => [fault.message]
  | json _ fault => [fault.message]
  | _ => []

def text : MigrationError → String
  | render e => "render error: " ++ e.text
  | load e => "registry error: " ++ e.text
  | io path fault => (io path fault).message ++ ": " ++ fault.message
  | json path fault => (json path fault).message ++ ": " ++ fault.message
  | e => e.message

def chain (e : MigrationError) : List String :=
  e.text :: e.causes

end MigrationError

end Workyard.Migration
