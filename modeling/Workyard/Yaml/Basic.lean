/-!
# YAML values

The values of YAML as they are written. A scalar keeps whether it was written plainly, since
only then can it stand for nothing. A value may be given a name, under which it can be meant
again further on; where names are expanded, none is left.
-/

namespace Workyard

set_option autoImplicit false

inductive Yaml where
  | scalar (text : String) (plain : Bool)
  | sequence (items : List Yaml)
  | mapping (entries : List (Yaml × Yaml))
  /-- A value that is given a name. -/
  | anchor (name : String) (value : Yaml)
  /-- The value that was given a name before. -/
  | reference (name : String)

namespace Yaml

/-- A value that was left out. -/
def absent : Yaml := .scalar "" true

def text? : Yaml → Option String
  | scalar text _ => some text
  | _ => none

/-- Names with their values, the latest first. -/
abbrev Names := List (String × Yaml)

mutual

/-- The value without names: every name is replaced by the latest value that was given it
before. A name that none was given is a fault. -/
def expand (names : Names) : Yaml → Option (Yaml × Names)
  | scalar text plain => some (scalar text plain, names)
  | sequence items => do
    let (items, names) ← expandItems names items
    some (sequence items, names)
  | mapping entries => do
    let (entries, names) ← expandEntries names entries
    some (mapping entries, names)
  | anchor name value => do
    let (value, names) ← expand names value
    some (value, (name, value) :: names)
  | reference name => do
    let value ← names.lookup name
    some (value, names)

def expandItems (names : Names) : List Yaml → Option (List Yaml × Names)
  | [] => some ([], names)
  | v :: vs => do
    let (v, names) ← expand names v
    let (vs, names) ← expandItems names vs
    some (v :: vs, names)

def expandEntries (names : Names) : List (Yaml × Yaml) → Option (List (Yaml × Yaml) × Names)
  | [] => some ([], names)
  | (k, v) :: es => do
    let (k, names) ← expand names k
    let (v, names) ← expand names v
    let (es, names) ← expandEntries names es
    some ((k, v) :: es, names)

end

end Yaml

end Workyard
