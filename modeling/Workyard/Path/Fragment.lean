import Workyard.Text.Separated

/-!
# Path fragments

Fragments of a path as they stand in options: joined with slashes and resolved without a look
at the disk. Backslashes count as slashes.
-/

namespace Workyard.Path

set_option autoImplicit false

open Text

/-- Adds a segment to those read so far, the latest of which comes first. A parent segment
takes back the last name; without one it is kept, or dropped at the top of an absolute path. -/
def pushSegment (absolute : Bool) (stack : List (List Char)) (segment : List Char) :
    List (List Char) :=
  if segment = [] ∨ segment = ['.'] then stack
  else if segment = ['.', '.'] then
    match stack with
    | [] => if absolute then [] else [segment]
    | last :: below =>
      if last ≠ ['.', '.'] then below
      else if absolute then last :: below
      else segment :: last :: below
  else segment :: stack

/-- The names that remain of a path, in order. -/
def resolve (path : List Char) : List (List Char) :=
  ((splitAt '/' path).foldl (pushSegment (path.head? == some '/')) []).reverse

/-- A path in its shortest form. A slash at the start or the end stays; nothing at all is the
current directory. -/
def normalize (path : List Char) : List Char :=
  if path = [] then ['.']
  else
    let names := joinWith ['/'] (resolve path)
    let out := if path.head? == some '/' then '/' :: names else names
    let out := if out = [] then ['.'] else out
    if path.getLast? == some '/' && out.getLast? != some '/' then out ++ ['/'] else out

def slashed (c : Char) : Char :=
  if c = '\\' then '/' else c

/-- The fragments as one path; empty ones do not count. -/
def joinFragments (fragments : List String) : String :=
  let joined := joinWith ['/'] ((fragments.map String.toList).filter (· ≠ []))
  String.ofList (normalize (joined.map slashed))

end Workyard.Path
