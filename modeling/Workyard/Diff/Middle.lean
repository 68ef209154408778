import Workyard.Diff.Script

/-!
# Where to divide two lists

Paths through the grid of two lists go right where an element of the old list is deleted,
down where one of the new list is inserted, and along a diagonal for free where both agree.
Frontiers hold for every diagonal how far a path with as many edits gets, one from the start
and one from the end; where they meet, a shortest path goes through.
-/

namespace Workyard.Diff

set_option autoImplicit false

/-- How far paths get on each diagonal; those beyond `bound` are at the start. -/
structure Frontier where
  bound : Nat
  reached : Array Nat

namespace Frontier

def start (bound : Nat) : Frontier :=
  ⟨bound, Array.replicate (2 * bound + 3) 0⟩

/-- The place of a diagonal in the array. -/
def index (f : Frontier) (k : Int) : Nat :=
  (k + f.bound + 1).toNat

def get (f : Frontier) (k : Int) : Nat :=
  f.reached.getD (f.index k) 0

def set (f : Frontier) (k : Int) (x : Nat) : Frontier :=
  { f with reached := f.reached.setIfInBounds (f.index k) x }

/-- Where a path with one edit more begins on a diagonal when it has `d` edits. -/
def next (f : Frontier) (d : Nat) (k : Int) : Nat :=
  if k = -d || (k ≠ d && f.get (k - 1) < f.get (k + 1)) then f.get (k + 1)
  else f.get (k - 1) + 1

end Frontier

/-- A place in the grid: so many old and so many new elements come before it. -/
structure Place where
  old : Nat
  new : Nat
  deriving DecidableEq, Repr

section Search

variable {α : Type} [DecidableEq α]

/-- How many elements agree from two places on, at most `fuel`. -/
def agreement (as bs : Array α) : Nat → Nat → Nat → Nat
  | 0, _, _ => 0
  | fuel + 1, i, j =>
    match as[i]?, bs[j]? with
    | some a, some b => if a = b then agreement as bs fuel (i + 1) (j + 1) + 1 else 0
    | _, _ => 0

/-- The diagonals that a path with `d` edits can end on, from the rightmost down. -/
def diagonals (d : Nat) : List Int :=
  (List.range (d + 1)).map fun (i : Nat) => (d : Int) - 2 * (i : Int)

/-- One round of a search over the diagonals. It ends where `meets` says so of a diagonal, and
of the number reached on it, and gives the place where the path came onto that diagonal and
the one that it reached. -/
def sweep (as bs : Array α) (d : Nat) (meets : Int → Nat → Bool) :
    Frontier → List Int → Except (Place × Place) Frontier
  | f, [] => .ok f
  | f, k :: ks =>
    let x := f.next d k
    let y := ((x : Int) - k).toNat
    let run := agreement as bs as.size x y
    let f := f.set k (x + run)
    if meets k (x + run) then .error (⟨x, y⟩, ⟨x + run, y + run⟩) else sweep as bs d meets f ks

/-- The lists of a search, also from their ends, and the diagonal between their lengths. -/
structure Grid (α : Type) where
  old : Array α
  new : Array α
  oldBack : Array α
  newBack : Array α

namespace Grid

def ofLists (as bs : List α) : Grid α :=
  ⟨as.toArray, bs.toArray, as.reverse.toArray, bs.reverse.toArray⟩

def delta (g : Grid α) : Int :=
  (g.old.size : Int) - g.new.size

/-- Rounds of both searches from `d` edits on. A path from the start may meet one from the end
only when the difference of the lengths is odd, and the other way round when it is even. -/
def meet (g : Grid α) : Nat → Nat → Frontier → Frontier → Option Place
  | 0, _, _, _ => none
  | fuel + 1, d, front, back =>
    let odd := g.delta % 2 ≠ 0
    let n := g.old.size
    let forward := sweep g.old g.new d (fun k x =>
      odd && (k - g.delta).natAbs + 1 ≤ d && x + back.get (-(k - g.delta)) ≥ n) front (diagonals d)
    match forward with
    | .error (place, _) => some place
    | .ok front =>
      let backward := sweep g.oldBack g.newBack d (fun k x =>
        !odd && (k - g.delta).natAbs ≤ d && x + front.get (-(k - g.delta)) ≥ n) back (diagonals d)
      match backward with
      | .error (_, place) => some ⟨n - place.old, g.new.size - place.new⟩
      | .ok back => meet g fuel (d + 1) front back

def middle? (g : Grid α) : Option Place :=
  let bound := (g.old.size + g.new.size + 1) / 2 + 1
  g.meet bound 0 (.start bound) (.start bound)

end Grid

end Search

end Workyard.Diff
