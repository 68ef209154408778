import Workyard.Disk.Basic
import Workyard.Log
import Workyard.Project.Error
import Workyard.Text.Blank
import Workyard.Yaml.Reader

/-!
# Settings

What a workspace may set in its settings file: directories to ignore, and how a migration
goes. Every field has a default, which a missing file leaves in place; keys that are not known
are passed over, and no known one may come twice.
-/

namespace Workyard

set_option autoImplicit false

structure MigrateSettings where
  /-- The executor whose targets are migrated. -/
  webpackExecutor : String
  /-- Executors that keep a project from being migrated. -/
  incompatibleExecutors : List String
  /-- Keys of options that are paths, beside those that always are. -/
  extraPathKeys : List String
  /-- A directory below the workspace with templates that replace those of the program. -/
  templateDir : Option FilePath
  deriving DecidableEq, Repr

structure Settings where
  ignore : List String
  migrate : MigrateSettings
  deriving DecidableEq, Repr

def MigrateSettings.standard : MigrateSettings where
  webpackExecutor := "@nx/webpack:webpack"
  incompatibleExecutors :=
    ["@nx/react:module-federation-dev-server", "@nx/angular:module-federation-dev-server"]
  extraPathKeys := []
  templateDir := none

def Settings.standard : Settings := ⟨[], .standard⟩

namespace Settings

variable {σ : Type}

/-- A field of a record: how its value is read into the record. -/
structure Field (σ : Type) where
  name : String
  read : Yaml → σ → Option σ

def fieldsByName (fields : List (Field σ)) : List String → List (Yaml × Yaml) → σ → Option σ
  | _, [], r => some r
  | seen, (k, v) :: entries, r => do
    let key ← k.text?
    match fields.find? (·.name = key) with
    | none => fieldsByName fields seen entries r
    | some f =>
      if key ∈ seen then none
      else
        let r ← f.read v r
        fieldsByName fields (key :: seen) entries r

def fieldsInOrder : List (Field σ) → List Yaml → σ → Option σ
  | _, [], r => some r
  | [], _ :: _, _ => none
  | f :: fs, v :: vs, r => do
    let r ← f.read v r
    fieldsInOrder fs vs r

/-- A record is a mapping by names, or a sequence in a fixed order; where nothing is written
all fields have their defaults. -/
def record (fields : List (Field σ)) (v : Yaml) (r : σ) : Option σ :=
  match v with
  | .mapping entries => fieldsByName fields [] entries r
  | .sequence items => fieldsInOrder fields items r
  | .scalar text plain => if plain && text.isEmpty then some r else none
  | _ => none

def texts : Yaml → Option (List String)
  | .sequence items => items.mapM (·.text?)
  | .scalar text plain => if plain && text.isEmpty then some [] else none
  | _ => none

/-- Words that stand for nothing when they are written plainly. -/
def nothingWords : List String := ["", "~", "null", "Null", "NULL"]

def optionalPath : Yaml → Option (Option FilePath)
  | .scalar text plain => some (if plain && nothingWords.contains text then none else some ⟨text⟩)
  | _ => none

def migrateFields : List (Field MigrateSettings) := [
  ⟨"webpack_executor", fun v r => do
    some { r with webpackExecutor := ← v.text? }⟩,
  ⟨"incompatible_executors", fun v r => do
    some { r with incompatibleExecutors := ← texts v }⟩,
  ⟨"extra_path_keys", fun v r => do
    some { r with extraPathKeys := ← texts v }⟩,
  ⟨"template_dir", fun v r => do
    some { r with templateDir := ← optionalPath v }⟩]

def fields : List (Field Settings) := [
  ⟨"ignore", fun v r => do
    some { r with ignore := ← texts v }⟩,
  ⟨"migrate", fun v r => do
    some { r with migrate := ← record migrateFields v MigrateSettings.standard }⟩]

def parse (text : String) : Option Settings := do
  if Text.isBlank text then some standard
  else record fields (← Yaml.parse text) standard

def pathIn (root : FilePath) : FilePath :=
  root.child "conduit.yaml"

def load (d : Disk) (root : FilePath) : Except LoadError Settings :=
  let path := pathIn root
  if !d.has path then .ok standard
  else
    match d.readText path with
    | .error fault => .error (.io path fault)
    | .ok text =>
      match parse text with
      | some s => .ok s
      | none => .error (.settings path)

end Settings

end Workyard
