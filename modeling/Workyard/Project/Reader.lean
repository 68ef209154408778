import Workyard.Json.Record
import Workyard.Log
import Workyard.Project.Basic
import Workyard.Project.Error

/-!
# Reading project files

A project file gives a name, a root and targets, and perhaps labels for targets that carry
none. The label of a target is the first that is not blank of its own and the one among its
further data; failing these, the first entry of the label list that names the target decides.
-/

namespace Workyard

set_option autoImplicit false

open Json

namespace Project

/-- The parts of a project file as they are written. -/
structure Written where
  name : Option String
  root : Option String
  targets : Members
  /-- Labels, each with the list of the targets under it. -/
  labels : Members

namespace Written

def labelField : Reader.Field Members :=
  ⟨"targetGroups", false, fun depth _ cs => Reader.objectMembers depth cs⟩

def fields : List (Reader.Field Written) := [
  ⟨"name", true, fun _ w cs => do
    let (name, cs) ← Reader.optionalText cs
    .ok ({ w with name }, cs)⟩,
  ⟨"root", true, fun _ w cs => do
    let (root, cs) ← Reader.optionalText cs
    .ok ({ w with root }, cs)⟩,
  ⟨"targets", false, fun depth w cs => do
    let (targets, cs) ← Reader.objectMembers depth cs
    .ok ({ w with targets }, cs)⟩,
  ⟨"metadata", false, fun depth w cs => do
    let (labels, cs) ← Reader.record [labelField] depth [] cs
    .ok ({ w with labels }, cs)⟩]

def parse (text : String) : Except Fault Written :=
  Reader.finish (Reader.record fields Reader.maxDepth ⟨none, none, [], []⟩) text.toList

end Written

structure WrittenTarget where
  executor : Option String
  group : Option String
  options : Members
  configurations : Members
  /-- The label among the further data. -/
  metadataGroup : Option String

namespace WrittenTarget

def optionalText : Json → Except Fault (Option String)
  | .null => .ok none
  | .string s => .ok (some s)
  | _ => .error .misshapen

def members : Json → Except Fault Members
  | .object ms => .ok ms
  | _ => .error .misshapen

/-- The value of a field, or the default of one that is missing. -/
def fieldOr {α : Type} (read : Json → Except Fault α) (default : α) :
    Option Json → Except Fault α
  | some v => read v
  | none => .ok default

def metadataLabel : Json → Except Fault (Option String)
  | .object ms => fieldOr optionalText none (Members.get? "group" ms)
  | .array [v] => optionalText v
  | _ => .error .misshapen

/-- The target that the given fields make, of which those that are missing have defaults. -/
def ofFields (executor group options configurations metadata : Option Json) :
    Except Fault WrittenTarget := do
  let executor ← fieldOr optionalText none executor
  let group ← fieldOr optionalText none group
  let options ← fieldOr members [] options
  let configurations ← fieldOr members [] configurations
  let metadataGroup ← fieldOr metadataLabel none metadata
  .ok ⟨executor, group, options, configurations, metadataGroup⟩

/-- A target is an object of its fields, or an array of them that has at least the first
two. -/
def ofJson : Json → Except Fault WrittenTarget
  | .object ms =>
    ofFields (Members.get? "executor" ms) (Members.get? "group" ms) (Members.get? "options" ms)
      (Members.get? "configurations" ms) (Members.get? "metadata" ms)
  | .array (executor :: group :: vs) =>
    if vs.length ≤ 3 then ofFields (some executor) (some group) vs[0]? vs[1]? vs[2]?
    else .error .misshapen
  | _ => .error .misshapen

end WrittenTarget

/-- The texts in a list; what is no list has none, and other items do not count. -/
def listed : Json → List String
  | .array vs => vs.filterMap (·.string?)
  | _ => []

/-- The first label whose list names the target, unless that label is blank. -/
def declaredLabel? (labels : Members) (target : String) : Option String :=
  (labels.find? fun m => (listed m.2).contains target).bind fun m => Target.cleanLabel m.1

def targetOf (labels : Members) (name : String) (w : WrittenTarget) : Target where
  name := name
  group := w.group.bind Target.cleanLabel <|> w.metadataGroup.bind Target.cleanLabel <|>
    declaredLabel? labels name
  executor := w.executor
  options := w.options
  configurations := w.configurations

def targetsOf (labels : Members) : Members → Except Fault (List Target)
  | [] => .ok []
  | (name, body) :: ms => do
    let w ← WrittenTarget.ofJson body
    let ts ← targetsOf labels ms
    .ok (targetOf labels name w :: ts)

/-- Names on a label list that no target has, each with its label. -/
def strangers (labels : Members) (names : List String) : List (String × String) :=
  labels.flatMap fun m => ((listed m.2).filter (!names.contains ·)).map fun name => (m.1, name)

def sayStrangers (path : FilePath) : List (String × String) → Logged LoadError Unit
  | [] => pure ()
  | (label, name) :: rest => do
    .debug (path.text ++ ": targetGroups '" ++ label ++ "' lists unknown target '" ++ name ++ "'")
    sayStrangers path rest

/-- The project that the text of a file gives. Name and root have defaults. -/
def parse (text : String) (path : FilePath) (name root : String) : Logged LoadError Project := do
  let w ← .ofExcept ((Written.parse text).mapError (.parse path))
  let targets ← .ofExcept ((targetsOf w.labels w.targets).mapError (.parse path))
  sayStrangers path (strangers w.labels (targets.map (·.name)))
  let name := w.name.getD name
  .ofExcept ((ofTargets name (w.root.getD root) (some path) targets).mapError
    (.duplicateTarget name))

end Project

end Workyard
