import Workyard.Project.Basic

/-!
# Groups of targets

The targets of a project fall into groups by their labels, in the order in which the labels
first occur; the others stay ungrouped. A group keeps the order of declaration.
-/

namespace Workyard

set_option autoImplicit false

structure TargetGroup where
  label : String
  targets : List String
  deriving DecidableEq, Repr

structure Grouping where
  groups : List TargetGroup
  ungrouped : List String
  deriving DecidableEq, Repr

namespace Grouping

/-- Where a target stands. No label is the same as being ungrouped. -/
inductive Place where
  | named (label : String)
  | ungrouped
  deriving DecidableEq, Repr

/-- Adds a target to the group of a label, which is made last if there is none. -/
def place (label target : String) : List TargetGroup → List TargetGroup
  | [] => [⟨label, [target]⟩]
  | g :: gs =>
    if g.label = label then ⟨g.label, g.targets ++ [target]⟩ :: gs
    else g :: place label target gs

def add (g : Grouping) (t : Target) : Grouping :=
  match t.label? with
  | some label => { g with groups := place label t.name g.groups }
  | none => { g with ungrouped := g.ungrouped ++ [t.name] }

def ofTargets (targets : List Target) : Grouping :=
  targets.foldl add ⟨[], []⟩

def ofProject (p : Project) : Grouping :=
  ofTargets p.targets

def group? (g : Grouping) (label : String) : Option (List String) :=
  (g.groups.find? (·.label = label)).map (·.targets)

/-- Whether a group holds a target. -/
def hasGroups (g : Grouping) : Bool :=
  g.groups.any (!·.targets.isEmpty)

def locate? (g : Grouping) (target : String) : Option Place :=
  match g.groups.find? (·.targets.contains target) with
  | some group => some (.named group.label)
  | none => if g.ungrouped.contains target then some .ungrouped else none

/-- All groups in order, and after them what is ungrouped. -/
def buckets (g : Grouping) : List (Place × List String) :=
  g.groups.map (fun group => (.named group.label, group.targets)) ++ [(.ungrouped, g.ungrouped)]

def size (g : Grouping) : Nat :=
  g.groups.foldr (fun group n => group.targets.length + n) g.ungrouped.length

def isEmpty (g : Grouping) : Bool :=
  g.size = 0

def strings (xs : List String) : Json :=
  .array (xs.map .string)

def toJson (g : Grouping) : Json :=
  .object [
    ("groups", .array (g.groups.map fun group =>
      .object [("label", .string group.label), ("targets", strings group.targets)])),
    ("ungrouped", strings g.ungrouped)]

end Grouping

end Workyard
