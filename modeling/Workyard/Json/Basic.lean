import Workyard.Decimal.Shortest

/-!
# JSON values

Objects keep their members in order. Setting a member that is there already keeps its place,
so that a key given twice stands where it came first with the value that came last.
-/

namespace Workyard

set_option autoImplicit false

open Decimal

namespace Json

/-- A number: an integer that fits 64 bits, with or without a sign, or a binary one. The
least is the negated 63rd power of two, and all are less than the 64th. -/
inductive Number where
  | integer (value : Int)
      (inRange : -9223372036854775808 ≤ value ∧ value < 18446744073709551616)
  | real (value : Binary64)
  deriving DecidableEq

def Number.ofInt? (value : Int) : Option Number :=
  if h : -9223372036854775808 ≤ value ∧ value < 18446744073709551616 then
    some (.integer value h)
  else none

@[simp] theorem Number.ofInt?_eq_some {value : Int}
    (h : -9223372036854775808 ≤ value ∧ value < 18446744073709551616) :
    Number.ofInt? value = some (.integer value h) := by
  simp only [Number.ofInt?, dif_pos h]

end Json

inductive Json where
  | null
  | bool (value : Bool)
  | number (value : Json.Number)
  | string (value : String)
  | array (items : List Json)
  | object (members : List (String × Json))

namespace Json

/-- The members of an object, in order. -/
abbrev Members := List (String × Json)

namespace Members

def get? (key : String) : Members → Option Json
  | [] => none
  | (k, v) :: ms => if k = key then some v else get? key ms

def keys (ms : Members) : List String :=
  ms.map Prod.fst

/-- Replaces the value of a key in its place, or appends the member. -/
def set (key : String) (value : Json) : Members → Members
  | [] => [(key, value)]
  | (k, v) :: ms => if k = key then (k, value) :: ms else (k, v) :: set key value ms

def modify (key : String) (change : Json → Json) : Members → Members
  | [] => []
  | (k, v) :: ms => if k = key then (k, change v) :: ms else (k, v) :: modify key change ms

def ofList (ms : List (String × Json)) : Members :=
  ms.foldl (fun acc m => set m.1 m.2 acc) []

theorem get?_set (key key' : String) (value : Json) (ms : Members) :
    get? key' (set key value ms) = if key = key' then some value else get? key' ms := by
  induction ms with
  | nil => simp [set, get?]
  | cons m ms ih =>
    obtain ⟨k, v⟩ := m
    by_cases hk : k = key <;> by_cases hk' : key = key' <;> by_cases hkk : k = key' <;>
      simp_all [set, get?]

theorem keys_set (key : String) (value : Json) (ms : Members) :
    keys (set key value ms) = if key ∈ keys ms then keys ms else keys ms ++ [key] := by
  induction ms with
  | nil => simp [set, keys]
  | cons m ms ih =>
    obtain ⟨k, v⟩ := m
    by_cases hk : k = key
    · simp [set, keys, hk]
    · have hk' : key ≠ k := fun h => hk h.symm
      simp only [keys, List.map_cons] at ih ⊢
      by_cases hm : key ∈ List.map Prod.fst ms <;> simp_all [set]

theorem keys_modify (key : String) (change : Json → Json) (ms : Members) :
    keys (modify key change ms) = keys ms := by
  induction ms with
  | nil => rfl
  | cons m ms ih =>
    obtain ⟨k, v⟩ := m
    by_cases hk : k = key
    · simp [modify, keys, hk]
    · simp only [keys] at ih
      simp [modify, keys, hk, ih]

end Members

def string? : Json → Option String
  | string s => some s
  | _ => none

def object? : Json → Option Members
  | object ms => some ms
  | _ => none

def array? : Json → Option (List Json)
  | array vs => some vs
  | _ => none

inductive Shape where
  | null | boolean | number | string | array | object
  deriving DecidableEq, Repr

def shape : Json → Shape
  | null => .null
  | bool _ => .boolean
  | number _ => .number
  | string _ => .string
  | array _ => .array
  | object _ => .object

end Json

end Workyard
