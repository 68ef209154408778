import Workyard.Options.Rebase

/-!
# What rebasing changes

A value is its frame, which says how objects and arrays are nested, under which keys and of which
lengths, together with the leaves at the ends of all ways into it. Rebasing keeps the frame, and
of the leaves it changes the strings whose nearest key is a path key. Between that key and the
string stand only arrays, so that the key is the last one on the way.
-/

namespace Workyard.Json

set_option autoImplicit false

/-- A step into a value: to the member under a key, or to the item at a position. -/
inductive Step where
  | member (key : String)
  | item (position : Nat)
  deriving DecidableEq, Repr

def Step.key? : Step → Option String
  | member k => some k
  | item _ => none

/-- The key that is nearest to the end of the way. -/
def nearestKey? (way : List Step) : Option String :=
  (way.filterMap Step.key?).getLast?

theorem nearestKey?_member (k : String) (way : List Step) :
    nearestKey? (.member k :: way) = some ((nearestKey? way).getD k) := by
  have hkeys : (Step.member k :: way).filterMap Step.key? = k :: way.filterMap Step.key? :=
    List.filterMap_cons_some rfl
  rw [nearestKey?, hkeys, List.getLast?_cons, nearestKey?]

theorem nearestKey?_item (position : Nat) (way : List Step) :
    nearestKey? (.item position :: way) = nearestKey? way := by
  have hkeys : (Step.item position :: way).filterMap Step.key? = way.filterMap Step.key? :=
    List.filterMap_cons_none rfl
  rw [nearestKey?, hkeys, nearestKey?]

/-- A leaf behind one more step. -/
def behind (step : Step) (leaf : List Step × Json) : List Step × Json :=
  (step :: leaf.1, leaf.2)

mutual

/-- The value with nothing at its leaves. -/
def frame : Json → Json
  | .array vs => .array (itemFrames vs)
  | .object ms => .object (memberFrames ms)
  | _ => .null

def itemFrames : List Json → List Json
  | [] => []
  | v :: vs => frame v :: itemFrames vs

def memberFrames : List (String × Json) → List (String × Json)
  | [] => []
  | (k, v) :: ms => (k, frame v) :: memberFrames ms

end

mutual

/-- The leaves of a value in their order, each with the way to it. -/
def leaves : Json → List (List Step × Json)
  | .array vs => itemLeaves 0 vs
  | .object ms => memberLeaves ms
  | v => [([], v)]

/-- The leaves of items, the first of which has the given position. -/
def itemLeaves (position : Nat) : List Json → List (List Step × Json)
  | [] => []
  | v :: vs => (leaves v).map (behind (.item position)) ++ itemLeaves (position + 1) vs

def memberLeaves : List (String × Json) → List (List Step × Json)
  | [] => []
  | (k, v) :: ms => (leaves v).map (behind (.member k)) ++ memberLeaves ms

end

end Workyard.Json

namespace Workyard.Options

set_option autoImplicit false

open Json (Step nearestKey? nearestKey?_member nearestKey?_item behind frame itemFrames memberFrames
  itemLeaves memberLeaves)

variable {keys : List String}

/-- A leaf on the way to which a path key is the last key. -/
def IsPathPlace (keys : List String) (way : List Step) : Prop :=
  ∃ k ∈ keys, nearestKey? way = some k

instance (keys : List String) (way : List Step) : Decidable (IsPathPlace keys way) :=
  inferInstanceAs (Decidable (∃ k ∈ keys, _))

/-- A path below the base; other leaves are no paths. -/
def joined (base : String) : Json → Json
  | .string s => .string (Path.joinFragments [base, s])
  | leaf => leaf

/-- What becomes of a leaf. -/
def rebasedLeaf (keys : List String) (base : String) (leaf : List Step × Json) :
    List Step × Json :=
  (leaf.1, if IsPathPlace keys leaf.1 then joined base leaf.2 else leaf.2)

/-- Options after a pass for each of the bases, the first of which comes first. -/
def rebaseAll (keys bases : List String) (ms : Json.Members) : Json.Members :=
  bases.foldl (fun ms base => rebase keys base ms) ms

/-! ### Within a value -/

/-- Whether a leaf within a value is at the place of a path. Without a key on the way to it, the
answer is the one for the value. -/
def placed (keys : List String) (here : Bool) (way : List Step) : Bool :=
  ((nearestKey? way).map fun k => decide (k ∈ keys)).getD here

theorem placed_false (way : List Step) : placed keys false way = decide (IsPathPlace keys way) := by
  rw [Bool.eq_iff_iff, decide_eq_true_eq, placed, IsPathPlace]
  cases nearestKey? way <;> simp

def rebasedWithin (keys : List String) (base : String) (here : Bool) (leaf : List Step × Json) :
    List Step × Json :=
  (leaf.1, if placed keys here leaf.1 then joined base leaf.2 else leaf.2)

theorem rebasedWithin_false (base : String) :
    rebasedWithin keys base false = rebasedLeaf keys base := by
  funext leaf
  simp only [rebasedWithin, rebasedLeaf, placed_false, decide_eq_true_eq]

variable {base : String} {here : Bool}

theorem map_behind_member (k : String) (ls : List (List Step × Json)) :
    (ls.map (behind (.member k))).map (rebasedWithin keys base here) =
      (ls.map (rebasedWithin keys base (decide (k ∈ keys)))).map (behind (.member k)) := by
  rw [List.map_map, List.map_map]
  refine List.map_congr_left fun leaf _ => ?_
  have hplace : placed keys here (.member k :: leaf.1) =
      placed keys (decide (k ∈ keys)) leaf.1 := by
    rw [placed, placed, nearestKey?_member]
    cases nearestKey? leaf.1 <;> rfl
  simp only [Function.comp_apply, rebasedWithin, behind, hplace]

theorem map_behind_item (position : Nat) (ls : List (List Step × Json)) :
    (ls.map (behind (.item position))).map (rebasedWithin keys base here) =
      (ls.map (rebasedWithin keys base here)).map (behind (.item position)) := by
  rw [List.map_map, List.map_map]
  refine List.map_congr_left fun leaf _ => ?_
  have hplace : placed keys here (.item position :: leaf.1) = placed keys here leaf.1 := by
    rw [placed, placed, nearestKey?_item]
  simp only [Function.comp_apply, rebasedWithin, behind, hplace]

section

variable (keys base)

mutual

theorem frame_rebaseValue (here : Bool) :
    ∀ v : Json, frame (rebaseValue keys base here v) = frame v
  | .null => by simp [rebaseValue]
  | .bool _ => by simp [rebaseValue]
  | .number _ => by simp [rebaseValue]
  | .string _ => by cases here <;> simp [rebaseValue, frame]
  | .array vs => by rw [rebaseValue, frame, frame, frames_rebaseItems here vs]
  | .object ms => by rw [rebaseValue, frame, frame, frames_rebase ms]

theorem frames_rebaseItems (here : Bool) :
    ∀ vs : List Json, itemFrames (rebaseItems keys base here vs) = itemFrames vs
  | [] => by simp [rebaseItems]
  | v :: vs => by
    rw [rebaseItems, itemFrames, itemFrames, frame_rebaseValue here v, frames_rebaseItems here vs]

theorem frames_rebase :
    ∀ ms : List (String × Json), memberFrames (rebase keys base ms) = memberFrames ms
  | [] => by simp [rebase]
  | (k, v) :: ms => by
    rw [rebase, memberFrames, memberFrames, frame_rebaseValue _ v, frames_rebase ms]

end

mutual

theorem leaves_rebaseValue (here : Bool) : ∀ v : Json,
    Json.leaves (rebaseValue keys base here v) = (Json.leaves v).map (rebasedWithin keys base here)
  | .null => by cases here <;> simp [rebaseValue, Json.leaves, rebasedWithin, joined]
  | .bool _ => by cases here <;> simp [rebaseValue, Json.leaves, rebasedWithin, joined]
  | .number _ => by cases here <;> simp [rebaseValue, Json.leaves, rebasedWithin, joined]
  | .string _ => by
    cases here <;> simp [rebaseValue, Json.leaves, rebasedWithin, placed, nearestKey?, joined]
  | .array vs => by rw [rebaseValue, Json.leaves, Json.leaves, leaves_rebaseItems here 0 vs]
  | .object ms => by rw [rebaseValue, Json.leaves, Json.leaves, leaves_rebase here ms]

theorem leaves_rebaseItems (here : Bool) (position : Nat) : ∀ vs : List Json,
    itemLeaves position (rebaseItems keys base here vs) =
      (itemLeaves position vs).map (rebasedWithin keys base here)
  | [] => by simp [rebaseItems, itemLeaves]
  | v :: vs => by
    rw [rebaseItems, itemLeaves, itemLeaves, leaves_rebaseValue here v,
      leaves_rebaseItems here (position + 1) vs, List.map_append, map_behind_item]

/-- Where an object stands is of no account for its members, each of which has a key of its own. -/
theorem leaves_rebase (here : Bool) : ∀ ms : List (String × Json),
    memberLeaves (rebase keys base ms) = (memberLeaves ms).map (rebasedWithin keys base here)
  | [] => by simp [rebase, memberLeaves]
  | (k, v) :: ms => by
    rw [rebase, memberLeaves, memberLeaves, leaves_rebaseValue _ v, leaves_rebase here ms,
      List.map_append, map_behind_member]

end

end

/-! ### Options -/

theorem frame_rebase (keys : List String) (base : String) (ms : Json.Members) :
    frame (.object (rebase keys base ms)) = frame (.object ms) := by
  rw [frame, frame, frames_rebase]

theorem leaves_object_rebase (keys : List String) (base : String) (ms : Json.Members) :
    Json.leaves (.object (rebase keys base ms)) =
      (Json.leaves (.object ms)).map (rebasedLeaf keys base) := by
  rw [Json.leaves, Json.leaves, leaves_rebase keys base false, rebasedWithin_false]

theorem filter_map_rebasedLeaf (base : String) (ls : List (List Step × Json)) :
    (ls.map (rebasedLeaf keys base)).filter (fun leaf => ¬ IsPathPlace keys leaf.1) =
      ls.filter fun leaf => ¬ IsPathPlace keys leaf.1 := by
  rw [List.filter_map]
  have hway : (fun leaf : List Step × Json => decide ¬ IsPathPlace keys leaf.1) ∘
      rebasedLeaf keys base = fun leaf => decide ¬ IsPathPlace keys leaf.1 := rfl
  rw [hway]
  refine (List.map_congr_left fun leaf hleaf => ?_).trans (List.map_id _)
  have hplace : ¬ IsPathPlace keys leaf.1 := by simpa using (List.mem_filter.mp hleaf).2
  exact congrArg (Prod.mk leaf.1) (if_neg hplace)

theorem filter_leaves_rebaseAll (keys bases : List String) (ms : Json.Members) :
    (Json.leaves (.object (rebaseAll keys bases ms))).filter
        (fun leaf => ¬ IsPathPlace keys leaf.1) =
      (Json.leaves (.object ms)).filter fun leaf => ¬ IsPathPlace keys leaf.1 := by
  induction bases generalizing ms with
  | nil => rfl
  | cons base bases ih =>
    refine (ih (rebase keys base ms)).trans ?_
    rw [leaves_object_rebase, filter_map_rebasedLeaf]

theorem frame_rebaseAll (keys bases : List String) (ms : Json.Members) :
    frame (.object (rebaseAll keys bases ms)) = frame (.object ms) := by
  induction bases generalizing ms with
  | nil => rfl
  | cons base bases ih => exact (ih (rebase keys base ms)).trans (frame_rebase keys base ms)

/-- Whatever the path keys are. Leaves at other places than those of paths outlast any passes. -/
theorem rebase_changes_paths_only (keys : List String) (base : String) (ms : Json.Members) :
    frame (.object (rebase keys base ms)) = frame (.object ms) ∧
      Json.leaves (.object (rebase keys base ms)) =
        (Json.leaves (.object ms)).map (rebasedLeaf keys base) ∧
      ∀ bases : List String,
        frame (.object (rebaseAll keys bases ms)) = frame (.object ms) ∧
          (Json.leaves (.object (rebaseAll keys bases ms))).filter
              (fun leaf => ¬ IsPathPlace keys leaf.1) =
            (Json.leaves (.object ms)).filter fun leaf => ¬ IsPathPlace keys leaf.1 := by
  refine ⟨frame_rebase keys base ms, leaves_object_rebase keys base ms, fun bases => ⟨?_, ?_⟩⟩
  · exact frame_rebaseAll keys bases ms
  · exact filter_leaves_rebaseAll keys bases ms

end Workyard.Options
