import Workyard.Json.Reader

/-!
# Reading records

A record is written as an object of its fields, or as an array of them in a fixed order. In
an object any field may be missing, none may come twice, and members of other names are
passed over; an array may stop early where the remaining fields have defaults. The shape is
checked while reading, so that the first fault of the text decides.
-/

namespace Workyard.Json.Reader

set_option autoImplicit false

variable {σ : Type}

/-- A field of a record: how its value is read into the record, at a given depth. -/
structure Field (σ : Type) where
  name : String
  /-- Whether an array must reach this far. -/
  required : Bool
  read : Nat → σ → Reader σ

/-- The fault of a value that has another shape than asked for. One that is not an array or
an object is read first. -/
def mismatch (cs : List Char) : Fault :=
  let after {α : Type} : Except Fault α → Fault
    | .ok _ => .misshapen
    | .error e => e
  match cs with
  | [] => .truncated
  | c :: rest =>
    if c = 'n' then after (wordTail ['u', 'l', 'l'] rest)
    else if c = 't' then after (wordTail ['r', 'u', 'e'] rest)
    else if c = 'f' then after (wordTail ['a', 'l', 's', 'e'] rest)
    else if c = '-' then after (number true rest)
    else if c.isDigit then after (number false cs)
    else if c = '\x22' then after (string rest)
    else if c = '[' || c = '\x7b' then .misshapen
    else .malformed

def text : Reader String := fun cs =>
  match skipSpace cs with
  | '\x22' :: cs => string cs
  | cs => .error (mismatch cs)

/-- A text, or none for `null`. -/
def optionalText : Reader (Option String) := fun cs =>
  match skipSpace cs with
  | 'n' :: cs => do .ok (none, ← wordTail ['u', 'l', 'l'] cs)
  | cs => do
    let (s, cs) ← text cs
    .ok (some s, cs)

def objectMembers (depth : Nat) : Reader Members := fun cs =>
  match skipSpace cs with
  | '\x7b' :: cs =>
    match depth with
    | 0 => .error .malformed
    | depth + 1 => members (2 * cs.length + 2) depth true [] cs
  | cs => .error (mismatch cs)

/-- The end of an array, after its last field. -/
def closeArray (cs : List Char) : Except Fault (List Char) :=
  match skipSpace cs with
  | [] => .error .truncated
  | c :: cs => if c = ']' then .ok cs else .error .malformed

def fieldsInOrder (depth : Nat) : Bool → List (Field σ) → σ → Reader σ
  | _, [], r, cs => do .ok (r, ← closeArray cs)
  | first, f :: fs, r, cs => do
    let (more, cs) ← nextItem first cs
    if more then
      let (r, cs) ← f.read depth r cs
      fieldsInOrder depth false fs r cs
    else if (f :: fs).any (·.required) then .error .misshapen
    else .ok (r, cs)

/-- Members of an object as fields, with the names in `seen` read already. -/
def fieldsByName (fields : List (Field σ)) (depth : Nat) : Nat → Bool → List String → σ → Reader σ
  | 0, _, _, _, _ => .error .truncated
  | fuel + 1, first, seen, r, cs => do
    let (more, cs) ← nextMember first cs
    if more then
      let (key, cs) ← string cs
      match fields.find? (·.name = key) with
      | none =>
        let cs ← colon cs
        let cs ← skipValue (2 * cs.length + 2) cs
        fieldsByName fields depth fuel false seen r cs
      | some f =>
        if key ∈ seen then .error .misshapen
        else
          let (r, cs) ← f.read depth r (← colon cs)
          fieldsByName fields depth fuel false (key :: seen) r cs
    else .ok (r, cs)

def record (fields : List (Field σ)) (depth : Nat) (r : σ) : Reader σ := fun cs =>
  match depth, skipSpace cs with
  | 0, '[' :: _ => .error .malformed
  | 0, '\x7b' :: _ => .error .malformed
  | depth + 1, '[' :: cs => fieldsInOrder depth true fields r cs
  | depth + 1, '\x7b' :: cs => fieldsByName fields depth (cs.length + 1) true [] r cs
  | _, cs => .error (mismatch cs)

end Workyard.Json.Reader
