import Workyard.Proofs.Json.Numbers

/-!
# Paths into documents

What stands in a document at a path of keys, and which keys the object there has.
-/

namespace Workyard.Json

set_option autoImplicit false

def at? : List String → Json → Option Json
  | [], v => some v
  | k :: ks, .object ms => (Members.get? k ms).bind (at? ks)
  | _ :: _, _ => none

/-- The keys of the object at a path, in their order. -/
def keysAt? (path : List String) (v : Json) : Option (List String) :=
  ((at? path v).bind object?).map Members.keys

variable {k k' : String} {path : List String}

@[simp] theorem at?_nil (v : Json) : at? [] v = some v := rfl

@[simp] theorem at?_cons_object (k : String) (path : List String) (ms : Members) :
    at? (k :: path) (.object ms) = (Members.get? k ms).bind (at? path) := rfl

theorem at?_cons (k : String) (path : List String) (v : Json) :
    at? (k :: path) v = (at? [k] v).bind (at? path) := by
  cases v with
  | object ms => cases h : Members.get? k ms <;> simp [h]
  | _ => rfl

theorem at?_mapNumbers (f : Number → Number) (path : List String) (v : Json) :
    at? path (v.mapNumbers f) = (at? path v).map (mapNumbers f) := by
  induction path generalizing v with
  | nil => rfl
  | cons k path ih =>
    cases v with
    | object ms =>
      have hget := Members.get?_mapNumbers (f := f) k ms
      unfold Members.mapNumbers at hget
      rw [mapNumbers_object, at?_cons_object, at?_cons_object, hget]
      cases Members.get? k ms with
      | none => rfl
      | some w => exact ih w
    | _ => simp [at?]

theorem at?_append (path path' : List String) (v : Json) :
    at? (path ++ path') v = (at? path v).bind (at? path') := by
  induction path generalizing v with
  | nil => rfl
  | cons k path ih =>
    rw [List.cons_append, at?_cons, at?_cons k path]
    cases at? [k] v with
    | none => rfl
    | some w => exact ih w

/-- Where one member of an object is changed, the others stay. -/
theorem at?_modify (f : Json → Json) (ms : Members) :
    at? (k' :: path) (.object (Members.modify k f ms)) =
      if k = k' then (at? [k] (.object ms)).bind fun v => at? path (f v)
      else at? (k' :: path) (.object ms) := by
  rw [at?_cons_object, Members.get?_modify]
  split
  · cases h : Members.get? k ms <;> simp [h]
  · rfl

theorem at?_set (v : Json) (ms : Members) :
    at? (k' :: path) (.object (Members.set k v ms)) =
      if k = k' then at? path v else at? (k' :: path) (.object ms) := by
  rw [at?_cons_object, Members.get?_set]
  split
  · rfl
  · rfl

end Workyard.Json
