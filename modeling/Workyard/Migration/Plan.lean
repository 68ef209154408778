import Workyard.Path.FilePath

/-!
# Migration plans

What a migration would do: which configs move aside, which files are written, and which
targets are migrated or passed over. Files move before any is written.
-/

namespace Workyard.Migration

set_option autoImplicit false

structure MigratedTarget where
  project : String
  target : String
  webpackConfig : FilePath
  legacyConfig : FilePath
  /-- The first marker is called more than once. -/
  multipleMarkers : Bool
  deriving DecidableEq, Repr

inductive SkipReason where
  | noWebpackConfig
  | configNotFound (path : FilePath)
  | noMarker (path : FilePath)
  /-- An earlier target migrates the same file. -/
  | sharedConfig (path : FilePath)
  deriving DecidableEq, Repr

def SkipReason.text : SkipReason → String
  | noWebpackConfig => "no webpackConfig option"
  | configNotFound path => path.text ++ " does not exist"
  | noMarker path => path.text ++ " does not call withNx"
  | sharedConfig path => path.text ++ " is already migrated by another target"

structure SkippedTarget where
  project : String
  target : String
  reason : SkipReason
  deriving DecidableEq, Repr

structure Rename where
  source : FilePath
  target : FilePath
  deriving DecidableEq, Repr

structure FileWrite where
  path : FilePath
  content : String
  deriving DecidableEq, Repr

structure Plan where
  root : FilePath
  migrated : List MigratedTarget
  skipped : List SkippedTarget
  renames : List Rename
  writes : List FileWrite
  deriving DecidableEq, Repr

/-- Whether a file moves aside before the writes. -/
def Plan.movesAside (p : Plan) (path : FilePath) : Bool :=
  p.renames.any (·.source.same path)

end Workyard.Migration
