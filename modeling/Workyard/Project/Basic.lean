import Workyard.Json.Basic
import Workyard.Path.FilePath
import Workyard.Text.Blank

/-!
# Projects

A project has named targets in the order of their declaration, and no two of them share a
name. A target may carry the label of a group; a blank label is none.
-/

namespace Workyard

set_option autoImplicit false

open Text

structure Target where
  name : String
  group : Option String
  executor : Option String
  options : Json.Members
  configurations : Json.Members

namespace Target

/-- A label that is not blank. -/
def cleanLabel (label : String) : Option String :=
  if isBlank label then none else some label

def label? (t : Target) : Option String :=
  t.group.bind cleanLabel

def configurationNames (t : Target) : List String :=
  Json.Members.keys t.configurations

def optionText? (t : Target) (key : String) : Option String :=
  (t.options.get? key).bind (·.string?)

def runsAny (executors : List String) (t : Target) : Bool :=
  (t.executor.map executors.contains).getD false

theorem cleanLabel_eq_some {label l : String} :
    cleanLabel label = some l ↔ label = l ∧ isBlank label = false := by
  by_cases h : isBlank label
  · simp [cleanLabel, h]
  · simp [cleanLabel, h]

end Target

/-- The first text that has occurred before, with those in `seen` read already. -/
def repeatedAfter (seen : List String) : List String → Option String
  | [] => none
  | x :: xs => if x ∈ seen then some x else repeatedAfter (x :: seen) xs

/-- The first text of a list that repeats an earlier one. -/
def repeated? (xs : List String) : Option String :=
  repeatedAfter [] xs

theorem repeatedAfter_eq_none {seen xs : List String} :
    repeatedAfter seen xs = none ↔ xs.Nodup ∧ ∀ x ∈ xs, x ∉ seen := by
  induction xs generalizing seen with
  | nil => simp [repeatedAfter]
  | cons x xs ih =>
    by_cases h : x ∈ seen
    · simp [repeatedAfter, h]
    · simp only [repeatedAfter, h, if_false, ih, List.nodup_cons, List.mem_cons]
      constructor
      · rintro ⟨hn, hx⟩
        refine ⟨⟨fun hm => hx x hm (.inl rfl), hn⟩, ?_⟩
        rintro y (rfl | hy)
        · exact h
        · exact fun hs => hx y hy (.inr hs)
      · rintro ⟨⟨hx, hn⟩, hs⟩
        refine ⟨hn, fun y hy => ?_⟩
        rintro (rfl | hm)
        · exact hx hy
        · exact hs y (.inr hy) hm

theorem repeated?_eq_none {xs : List String} : repeated? xs = none ↔ xs.Nodup := by
  simp [repeated?, repeatedAfter_eq_none]

structure Project where
  name : String
  root : String
  source : Option FilePath
  targets : List Target
  nodup : (targets.map (·.name)).Nodup

namespace Project

/-- A project of the targets, or the first name among them that is given again. -/
def ofTargets (name root : String) (source : Option FilePath) (targets : List Target) :
    Except String Project :=
  match h : repeated? (targets.map (·.name)) with
  | none => .ok ⟨name, root, source, targets, repeated?_eq_none.1 h⟩
  | some t => .error t

def targetNames (p : Project) : List String :=
  p.targets.map (·.name)

def target? (p : Project) (name : String) : Option Target :=
  p.targets.find? (·.name = name)

/-- Whether a target of the project runs one of the executors. -/
def usesAny (p : Project) (executors : List String) : Bool :=
  p.targets.any (Target.runsAny executors)

theorem target?_eq_some {p : Project} {name : String} {t : Target}
    (h : p.target? name = some t) : t ∈ p.targets ∧ t.name = name := by
  have hm := List.mem_of_find?_eq_some h
  have hn := List.find?_some h
  exact ⟨hm, by simpa using hn⟩

end Project

end Workyard
