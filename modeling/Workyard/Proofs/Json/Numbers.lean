import Workyard.Json.Printer
import Workyard.Json.Reader
import Workyard.Proofs.Json.Members

/-!
# Numbers in a document

The numbers that occur in a document, and the document in which each of them is changed. What is
written and read again is the document with each number read back from its text.
-/

namespace Workyard.Json

set_option autoImplicit false

mutual

/-- All numbers of a document, from the first to the last. -/
def numbers : Json → List Number
  | .number n => [n]
  | .array vs => itemNumbers vs
  | .object ms => memberNumbers ms
  | _ => []

def itemNumbers : List Json → List Number
  | [] => []
  | v :: vs => v.numbers ++ itemNumbers vs

def memberNumbers : List (String × Json) → List Number
  | [] => []
  | (_, v) :: ms => v.numbers ++ memberNumbers ms

end

mutual

def mapNumbers (f : Number → Number) : Json → Json
  | .number n => .number (f n)
  | .array vs => .array (mapItemNumbers f vs)
  | .object ms => .object (mapMemberNumbers f ms)
  | v => v

def mapItemNumbers (f : Number → Number) : List Json → List Json
  | [] => []
  | v :: vs => mapNumbers f v :: mapItemNumbers f vs

def mapMemberNumbers (f : Number → Number) : List (String × Json) → List (String × Json)
  | [] => []
  | (k, v) :: ms => (k, mapNumbers f v) :: mapMemberNumbers f ms

end

theorem mapItemNumbers_eq_map (f : Number → Number) (vs : List Json) :
    mapItemNumbers f vs = vs.map (mapNumbers f) := by
  induction vs with
  | nil => rfl
  | cons v vs ih => rw [mapItemNumbers, ih, List.map_cons]

theorem mapMemberNumbers_eq_map (f : Number → Number) (ms : List (String × Json)) :
    mapMemberNumbers f ms = ms.map fun m => (m.1, mapNumbers f m.2) := by
  induction ms with
  | nil => rfl
  | cons m ms ih => rw [mapMemberNumbers, ih, List.map_cons]

section

variable (f : Number → Number)

@[simp] theorem mapNumbers_null : mapNumbers f .null = .null := by simp [mapNumbers]

@[simp] theorem mapNumbers_bool (b : Bool) : mapNumbers f (.bool b) = .bool b := by
  simp [mapNumbers]

@[simp] theorem mapNumbers_number (n : Number) : mapNumbers f (.number n) = .number (f n) := by
  simp [mapNumbers]

@[simp] theorem mapNumbers_string (s : String) : mapNumbers f (.string s) = .string s := by
  simp [mapNumbers]

@[simp] theorem mapNumbers_array (vs : List Json) :
    mapNumbers f (.array vs) = .array (vs.map (mapNumbers f)) := by
  rw [mapNumbers, mapItemNumbers_eq_map]

@[simp] theorem mapNumbers_object (ms : Members) :
    mapNumbers f (.object ms) = .object (ms.map fun m => (m.1, mapNumbers f m.2)) := by
  rw [mapNumbers, mapMemberNumbers_eq_map]

end

mutual

/-- A document stays the same exactly if each of its numbers does. -/
theorem mapNumbers_eq_self_iff (f : Number → Number) :
    ∀ v : Json, mapNumbers f v = v ↔ ∀ n ∈ v.numbers, f n = n
  | .null => by simp [numbers]
  | .bool _ => by simp [numbers]
  | .number _ => by simp [numbers]
  | .string _ => by simp [numbers]
  | .array vs => by
    rw [mapNumbers, numbers, Json.array.injEq]
    exact mapItemNumbers_eq_self_iff f vs
  | .object ms => by
    rw [mapNumbers, numbers, Json.object.injEq]
    exact mapMemberNumbers_eq_self_iff f ms

theorem mapItemNumbers_eq_self_iff (f : Number → Number) :
    ∀ vs : List Json, mapItemNumbers f vs = vs ↔ ∀ n ∈ itemNumbers vs, f n = n
  | [] => by simp [mapItemNumbers, itemNumbers]
  | v :: vs => by
    rw [mapItemNumbers, itemNumbers, List.cons.injEq, List.forall_mem_append,
      mapNumbers_eq_self_iff f v, mapItemNumbers_eq_self_iff f vs]

theorem mapMemberNumbers_eq_self_iff (f : Number → Number) :
    ∀ ms : List (String × Json), mapMemberNumbers f ms = ms ↔ ∀ n ∈ memberNumbers ms, f n = n
  | [] => by simp [mapMemberNumbers, memberNumbers]
  | (k, v) :: ms => by
    rw [mapMemberNumbers, memberNumbers, List.cons.injEq, Prod.mk.injEq, List.forall_mem_append,
      mapNumbers_eq_self_iff f v, mapMemberNumbers_eq_self_iff f ms]
    simp

end

namespace Members

def mapNumbers (f : Number → Number) (ms : Members) : Members :=
  ms.map fun m => (m.1, m.2.mapNumbers f)

variable {f : Number → Number}

@[simp] theorem keys_mapNumbers (ms : Members) : keys (ms.mapNumbers f) = keys ms := by
  simp [keys, mapNumbers]

theorem get?_mapNumbers (key : String) (ms : Members) :
    get? key (ms.mapNumbers f) = (get? key ms).map (Json.mapNumbers f) := by
  induction ms with
  | nil => rfl
  | cons m ms ih =>
    obtain ⟨k, v⟩ := m
    by_cases hk : k = key
    · simp [mapNumbers, get?, hk]
    · simpa [mapNumbers, get?, hk] using ih

end Members

/-- The number that the text of a number reads as. -/
def Number.reread (n : Number) : Number :=
  match parse (compact (.number n)) with
  | .ok (.number m) => m
  | _ => n

def reread (v : Json) : Json :=
  v.mapNumbers Number.reread

end Workyard.Json
