import Workyard.Log
import Workyard.Options.Literal

/-!
# Marker calls

A script takes part in a migration when it calls a marker by its plain name. Two markers are
looked for: the first carries the options of the application, the second those of a plugin.
Of several calls of one marker the first in the order of reading counts. A call that does not
parse, or the name of a marker amid text that does not, spoils the script.
-/

namespace Workyard.Options

set_option autoImplicit false

open Script

/-- The first argument of a call, as it is written, and where. -/
structure MarkerArgument where
  text : String
  offset : Nat
  deriving DecidableEq, Repr

/-- A place where a marker is named. -/
inductive Site where
  | call (offset : Nat) (argument : Option MarkerArgument)
  | broken (offset : Nat)
  deriving DecidableEq, Repr

structure MarkerCall where
  occurrences : Nat
  argument : Option MarkerArgument
  deriving DecidableEq, Repr

structure Extraction where
  app : MarkerCall
  react : Option MarkerCall
  deriving DecidableEq, Repr

structure MarkerNames where
  primary : String
  secondary : String

def MarkerNames.standard : MarkerNames := ⟨"withNx", "withReact"⟩

variable {source : List Char}

def isNameOf (callee : String) : Node source → Bool
  | .leaf .name _ text => text = callee
  | _ => false

def argumentOf (n : Node source) : MarkerArgument :=
  ⟨n.span, n.start.offset⟩

/-- The site that a call with the given children is, without a look at faults. -/
def callSite (start : Nat) (children : List (Node source)) : Site :=
  let lists := children.filter fun n => n.kind = .arguments ∨ n.kind = .template
  .call start ((lists.getLast?.bind (·.significant.head?)).map argumentOf)

mutual

/-- The sites in the tree, in the order of reading. `astray` holds within text that does not
parse, and `inCall` for the immediate children of a call. -/
def sitesOf (callee : String) (astray inCall : Bool) : Node source → List Site
  | .leaf k m text =>
    if isNameOf callee (.leaf k m text) && astray && !inCall then [.broken m.offset] else []
  | .branch k start stop ns =>
    let below := sitesOfAll callee (astray || k = .error) (k = .call) ns
    if k = .call && (ns.head?.map (isNameOf callee)).getD false then
      (if Node.hasFault (.branch k start stop ns) then .broken start.offset
        else callSite start.offset ns) :: below
    else below

def sitesOfAll (callee : String) (astray inCall : Bool) : List (Node source) → List Site
  | [] => []
  | n :: ns => sitesOf callee astray inCall n ++ sitesOfAll callee astray inCall ns

end

def callsMessage (callee : String) (calls offset : Nat) : String :=
  callee ++ "() is called " ++ calls.repr ++ " times; using the call at offset " ++ offset.repr

def markerIn (root : Node source) (callee : String) :
    Logged OptionError (Option MarkerCall) :=
  let sites := sitesOf callee false false root
  match sites with
  | [] => pure none
  | .broken offset :: _ => .fail (.malformedCall callee offset)
  | .call offset argument :: others => do
    if !others.isEmpty then
      .warn (callsMessage callee sites.length offset)
    pure (some ⟨sites.length, argument⟩)

/-- The markers of a script; none when the first marker is never called. -/
def extract (names : MarkerNames) (text : String) :
    Logged OptionError (Option Extraction) := do
  let root := Script.parse text.toList
  if root.hasFault then
    .debug "source has syntax errors; reading marker calls that still parse"
  match ← markerIn root names.primary with
  | none =>
    .debug ("no " ++ names.primary ++ "() call found")
    pure none
  | some app =>
    let react ← markerIn root names.secondary
    pure (some ⟨app, react⟩)

/-- The options that an argument spells. Faults carry offsets of the whole script. -/
def MarkerArgument.parse (argument : MarkerArgument) : Read Json.Members :=
  (parseObject argument.text).mapError (·.move (argument.offset + ·))

namespace Extraction

def appOptions (e : Extraction) : Read Json.Members :=
  match e.app.argument with
  | some argument => argument.parse
  | none => .ok []

def reactText (e : Extraction) : Option String :=
  (e.react.bind (·.argument)).map (·.text)

end Extraction

end Workyard.Options
