import Workyard.Json.Printer
import Workyard.Project.Grouping

/-!
# The display of a project

What a user sees of a project: its targets under the headings of their groups, with the
ungrouped ones last, or a plain list where no group holds a target. A target on display can
be run or looked up in the task graph through hooks, of which either may be absent.
-/

namespace Workyard

set_option autoImplicit false

structure DisplayItem where
  project : String
  target : String
  executor : Option String
  configurations : List String
  deriving DecidableEq, Repr

inductive Heading where
  | group (label : String)
  | others
  deriving DecidableEq, Repr

structure DisplayNode where
  heading : Heading
  count : Nat
  items : List DisplayItem
  deriving DecidableEq, Repr

inductive DisplayTree where
  | flat (items : List DisplayItem)
  | grouped (nodes : List DisplayNode)
  deriving DecidableEq, Repr

def Heading.text : Heading → String
  | group label => label
  | others => "Others"

namespace DisplayItem

/-- The target of a name as the project declares it. -/
def ofName (p : Project) (name : String) : DisplayItem :=
  match p.target? name with
  | some t => ⟨p.name, name, t.executor, t.configurationNames⟩
  | none => ⟨p.name, name, none, []⟩

def toJson (i : DisplayItem) : Json :=
  .object [
    ("project", .string i.project), ("target", .string i.target),
    ("executor", (i.executor.map Json.string).getD .null),
    ("configurations", Grouping.strings i.configurations)]

end DisplayItem

namespace DisplayTree

def groupNode (p : Project) (g : TargetGroup) : DisplayNode :=
  ⟨.group g.label, g.targets.length, g.targets.map (DisplayItem.ofName p)⟩

def othersNode (p : Project) (names : List String) : DisplayNode :=
  ⟨.others, names.length, names.map (DisplayItem.ofName p)⟩

/-- The display of a project under a grouping. Groups without targets are left out. -/
def present (p : Project) (g : Grouping) : DisplayTree :=
  if g.hasGroups then
    .grouped (((g.groups.filter (!·.targets.isEmpty)).map (groupNode p)) ++
      [othersNode p g.ungrouped])
  else .flat (g.ungrouped.map (DisplayItem.ofName p))

def items : DisplayTree → List DisplayItem
  | flat is => is
  | grouped ns => ns.flatMap (·.items)

def targetNames (t : DisplayTree) : List String :=
  t.items.map (·.target)

def count (n : Nat) : Json :=
  ((Json.Number.ofInt? n).map Json.number).getD .null

def headingJson : Heading → Json
  | .group label => .object [("kind", .string "group"), ("label", .string label)]
  | .others => .object [("kind", .string "others")]

def nodeJson (n : DisplayNode) : Json :=
  .object [("heading", headingJson n.heading), ("count", count n.count),
    ("items", .array (n.items.map (·.toJson)))]

def toJson : DisplayTree → Json
  | flat is => .object [("layout", .string "flat"), ("entries", .array (is.map (·.toJson)))]
  | grouped ns => .object [("layout", .string "grouped"), ("entries", .array (ns.map nodeJson))]

end DisplayTree

/-- A target as hooks are told of it. -/
structure TargetRef where
  project : String
  target : String
  deriving DecidableEq, Repr

def DisplayItem.ref (i : DisplayItem) : TargetRef :=
  ⟨i.project, i.target⟩

def TargetRef.toJson (r : TargetRef) : Json :=
  .object [("projectName", .string r.project), ("targetName", .string r.target)]

/-- What to do when a target on display is acted on. -/
structure ActionHooks (α : Type) where
  onRunTarget : Option (TargetRef → α)
  onViewInTaskGraph : Option (TargetRef → α)

namespace ActionHooks

variable {α : Type}

/-- What the hook for running does with the item, if there is one. -/
def runTarget? (h : ActionHooks α) (i : DisplayItem) : Option α :=
  h.onRunTarget.map fun hook => hook i.ref

/-- What the hook for the task graph does with the item, if there is one. -/
def viewInTaskGraph? (h : ActionHooks α) (i : DisplayItem) : Option α :=
  h.onViewInTaskGraph.map fun hook => hook i.ref

def truth (b : Bool) : String :=
  if b then "true" else "false"

/-- Which hooks there are, in words. -/
def describe (h : ActionHooks α) : String :=
  "ActionHooks \x7b on_run_target: " ++ truth h.onRunTarget.isSome ++
    ", on_view_in_task_graph: " ++ truth h.onViewInTaskGraph.isSome ++ " \x7d"

end ActionHooks

end Workyard
