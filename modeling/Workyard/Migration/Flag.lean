import Workyard.Json.Printer
import Workyard.Json.Reader

/-!
# The flag of migrated targets

A migrated target says in its options that its config is a plain webpack config. The flag is
set in the document of the project, all else of which stays as it is.
-/

namespace Workyard.Migration

set_option autoImplicit false

def standardFlag : String := "standardWebpackConfigFunction"

def flagOptions : Json → Json
  | .object ms => .object (Json.Members.set standardFlag (.bool true) ms)
  | v => v

def flagTarget : Json → Json
  | .object ms =>
    match Json.Members.get? "options" ms with
    | some _ => .object (Json.Members.modify "options" flagOptions ms)
    | none => .object (Json.Members.set "options" (flagOptions (.object [])) ms)
  | v => v

def flagTargets (target : String) : Json → Json
  | .object ms => .object (Json.Members.modify target flagTarget ms)
  | v => v

def flagDocument (target : String) : Json → Json
  | .object ms => .object (Json.Members.modify "targets" (flagTargets target) ms)
  | v => v

def flagAll (targets : List String) (doc : Json) : Json :=
  targets.foldl (fun doc t => flagDocument t doc) doc

end Workyard.Migration
