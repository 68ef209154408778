import Workyard.Text.Separated

/-!
# File paths

A path keeps the text it was spelled with. What it says is its list of components: doubled
slashes, and single dots other than a leading one, do not count. Two paths are the same when
their components are, and paths are ordered by components.
-/

namespace Workyard

set_option autoImplicit false

open Text

structure FilePath where
  text : String
  deriving DecidableEq, Repr

namespace FilePath

inductive Component where
  | root | current | parent
  | name (text : String)
  deriving DecidableEq, Repr

/-- A piece of the text between slashes, and whether it says anything. -/
structure Segment where
  text : List Char
  counts : Bool
  deriving DecidableEq, Repr

def isAbsolute (p : FilePath) : Bool :=
  p.text.toList.head? == some '/'

/-- Whether a segment says anything where it is not the first one. -/
def countsWithin (segment : List Char) : Bool :=
  segment ≠ [] ∧ segment ≠ ['.']

def segmentsOf : List (List Char) → List Segment
  | [] => []
  | first :: rest => ⟨first, first ≠ []⟩ :: rest.map fun s => ⟨s, countsWithin s⟩

def segments (p : FilePath) : List Segment :=
  segmentsOf (splitAt '/' p.text.toList)

def componentOf (segment : List Char) : Component :=
  if segment = ['.'] then .current
  else if segment = ['.', '.'] then .parent
  else .name (String.ofList segment)

def components (p : FilePath) : List Component :=
  let names := ((p.segments).filter (·.counts)).map fun s => componentOf s.text
  if p.isAbsolute then .root :: names else names

def same (p q : FilePath) : Bool :=
  p.components = q.components

/-- Trailing segments that say nothing are left out. -/
def trimEnd (segments : List Segment) : List Segment :=
  (segments.reverse.dropWhile fun s => !s.counts).reverse

/-- The path of the segments; `absolute` gives back the slash that they may have lost. -/
def ofSegments (absolute : Bool) (segments : List Segment) : FilePath :=
  let text := joinWith ['/'] (segments.map (·.text))
  ⟨String.ofList (if absolute && text.isEmpty then ['/'] else text)⟩

def parent? (p : FilePath) : Option FilePath :=
  match (p.segments).reverse.dropWhile (fun s => !s.counts) with
  | [] => none
  | _ :: rest => some (ofSegments p.isAbsolute (trimEnd rest.reverse))

def fileName? (p : FilePath) : Option String :=
  match p.components.getLast? with
  | some (.name s) => some s
  | _ => none

def endsInSlash (p : FilePath) : Bool :=
  p.text.toList.getLast? == some '/'

/-- The path without slashes at its end; the root keeps its own. -/
def trimSlash (p : FilePath) : FilePath :=
  let kept := (p.text.toList.reverse.dropWhile (· = '/')).reverse
  ⟨String.ofList (if kept.isEmpty && p.isAbsolute then ['/'] else kept)⟩

/-- A path followed by another one, which counts alone when it is absolute. -/
def join (p q : FilePath) : FilePath :=
  if q.isAbsolute then q
  else if p.text.isEmpty || p.endsInSlash then ⟨p.text ++ q.text⟩
  else ⟨p.text ++ "/" ++ q.text⟩

def child (p : FilePath) (name : String) : FilePath :=
  p.join ⟨name⟩

def withFileName (p : FilePath) (name : String) : FilePath :=
  let dir := if p.fileName?.isSome then (p.parent?).getD p else p
  dir.child name

/-- Drops as many segments that count. -/
def dropCounting : Nat → List Segment → List Segment
  | 0, segments => segments
  | _, [] => []
  | n + 1, s :: rest => if s.counts then dropCounting n rest else dropCounting (n + 1) rest

/-- The path relative to another one that it begins with. -/
def stripPrefix? (base p : FilePath) : Option FilePath :=
  if base.components.isPrefixOf p.components then
    let kept := dropCounting ((base.segments).filter (·.counts)).length p.segments
    if base.components.isEmpty then some (ofSegments p.isAbsolute (trimEnd kept))
    else some (ofSegments false (trimEnd (kept.dropWhile fun s => !s.counts)))
  else none

def relativeTo (base p : FilePath) : FilePath :=
  (stripPrefix? base p).getD p

/-- A name as the part before its last dot and the part after. A dot at the start does not
count, and a name without another one has no second part. -/
def splitName (name : List Char) : List Char × Option (List Char) :=
  let after := name.reverse.takeWhile (· ≠ '.')
  let before := (name.reverse.dropWhile (· ≠ '.')).drop 1
  if after.length = name.length || before.isEmpty then (name, none)
  else (before.reverse, some after.reverse)

def stem? (p : FilePath) : Option String :=
  p.fileName?.map fun name => String.ofList (splitName name.toList).1

def extension? (p : FilePath) : Option String :=
  p.fileName?.bind fun name => (splitName name.toList).2.map String.ofList

def Component.text : Component → String
  | root => "/"
  | current => "."
  | parent => ".."
  | name s => s

def Component.rank : Component → Nat
  | root => 0
  | current => 1
  | parent => 2
  | name _ => 3

/-- The order of components; names are ordered by their characters. -/
def Component.le (a b : Component) : Bool :=
  a.rank < b.rank || (a.rank = b.rank && a.text ≤ b.text)

def componentsLe : List Component → List Component → Bool
  | [], _ => true
  | _ :: _, [] => false
  | a :: as, b :: bs => if a = b then componentsLe as bs else a.le b

def le (p q : FilePath) : Bool :=
  componentsLe p.components q.components

theorem same_iff {p q : FilePath} : p.same q = true ↔ p.components = q.components := by
  simp [same]

@[simp] theorem same_refl (p : FilePath) : p.same p = true := by simp [same]

end FilePath

end Workyard
