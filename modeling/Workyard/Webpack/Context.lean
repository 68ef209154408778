import Workyard.Json.Printer
import Workyard.Path.FilePath
import Workyard.Template.Basic

/-!
# What a new config is made from

The old config moves aside under a name with one more word before its extension, and the new
one refers to it. The values below are those that a template of the new config may name.
-/

namespace Workyard.Webpack

set_option autoImplicit false

/-- The name by which the moved config is required: its file name without the extension. -/
def legacyModule (configFileName : String) : String :=
  ((⟨configFileName⟩ : FilePath).stem?.getD configFileName) ++ ".old"

def legacyFileName (configFileName : String) : String :=
  match (⟨configFileName⟩ : FilePath).extension? with
  | some extension => legacyModule configFileName ++ "." ++ extension
  | none => legacyModule configFileName

structure Context where
  configFileName : String
  legacyFileName : String
  legacyModule : String
  optionsJson : String
  hasAppOptions : Bool
  reactOptions : Option String
  deriving DecidableEq, Repr

namespace Context

/-- The context of a config file with the options of the app, if any, and the text of those
for React, if any. -/
def make (configFileName : String) (options : Option Json.Members) (react : Option String) :
    Context where
  configFileName := configFileName
  legacyFileName := Webpack.legacyFileName configFileName
  legacyModule := Webpack.legacyModule configFileName
  optionsJson := ((options.map fun ms => (Json.object ms).pretty)).getD (Json.object []).compact
  hasAppOptions := options.isSome
  reactOptions := react

def reactValue (c : Context) : Template.Value :=
  match c.reactOptions with
  | some s => .text s
  | none => .nothing

def bindings (c : Context) : List (String × Template.Value) := [
  ("config_file_name", .text c.configFileName),
  ("legacy_file_name", .text c.legacyFileName),
  ("legacy_module", .text c.legacyModule),
  ("options_json", .text c.optionsJson),
  ("has_app_options", .truth c.hasAppOptions),
  ("react_options", c.reactValue)]

def scope (c : Context) : Template.Scope :=
  fun name => (c.bindings.find? (·.1 = name)).map (·.2)

def jsonOf : Template.Value → Json
  | .text s => .string s
  | .truth b => .bool b
  | .nothing => .null

def toJson (c : Context) : Json :=
  .object (c.bindings.map fun (name, v) => (name, jsonOf v))

end Context

end Workyard.Webpack
