import Workyard.Diff.Shortest

/-!
# Settled scripts

An insertion may slide over kept elements that agree with its own; a deletion stays between
those that it stands between. Every edit is moved up and then down as far as it goes, on which
way it passes edits of the other kind and unites with those of its own.
-/

namespace Workyard.Diff

set_option autoImplicit false

variable {α : Type}

/-- A run in the middle of a script, with the runs above it from the nearest on. -/
structure Focus (α : Type) where
  above : List (Run α)
  current : Run α
  below : List (Run α)

/-- Puts kept elements in front of runs. -/
def keepBefore (items : List α) : List (Run α) → List (Run α)
  | ⟨.keep, kept⟩ :: rs => ⟨.keep, items ++ kept⟩ :: rs
  | rs => if items.isEmpty then rs else ⟨.keep, items⟩ :: rs

/-- Puts kept elements behind runs that are listed from the last one on. -/
def keepAfter (items : List α) : List (Run α) → List (Run α)
  | ⟨.keep, kept⟩ :: rs => ⟨.keep, kept ++ items⟩ :: rs
  | rs => if items.isEmpty then rs else ⟨.keep, items⟩ :: rs

/-- Kept elements and those of an edit next to them, after some have changed places. -/
structure Slid (α : Type) where
  kept : List α
  edit : List α
  /-- The kept elements that are now on the other side of the edit. -/
  passed : List α

section Slide

variable [DecidableEq α]

/-- Slides an edit over kept elements as long as the next one of them is the one at the end of
the edit. Both are listed from there on. -/
def slide (passed : List α) : List α → List α → Slid α
  | k :: ks, e :: es =>
    if k = e then slide (passed ++ [e]) ks (es ++ [k]) else ⟨k :: ks, e :: es, passed⟩
  | ks, es => ⟨ks, es, passed⟩

/-- What becomes of kept elements and an edit next to them. Only an insertion slides. -/
def slideBy (action : Action) (kept edit : List α) : Slid α :=
  if action = .insert then slide [] kept edit else ⟨kept, edit, []⟩

/-- Moves the edit of an action up through the runs above it. -/
def moveUp (action : Action) : List (Run α) → List α → List (Run α) → Focus α
  | [], items, below => ⟨[], ⟨action, items⟩, below⟩
  | r :: above, items, below =>
    if r.action = .keep then
      let s := slideBy action r.items.reverse items.reverse
      let below := keepBefore s.passed.reverse below
      if s.kept.isEmpty then moveUp action above s.edit.reverse below
      else ⟨⟨.keep, s.kept.reverse⟩ :: above, ⟨action, s.edit.reverse⟩, below⟩
    else if r.action = action then moveUp action above (r.items ++ items) below
    else moveUp action above items (r :: below)

/-- Moves the edit of an action down through the runs below it. -/
def moveDown (action : Action) : List (Run α) → List α → List (Run α) → Focus α
  | above, items, [] => ⟨above, ⟨action, items⟩, []⟩
  | above, items, r :: below =>
    if r.action = .keep then
      let s := slideBy action r.items items
      let above := keepAfter s.passed above
      if s.kept.isEmpty then moveDown action above s.edit below
      else ⟨above, ⟨action, s.edit⟩, ⟨.keep, s.kept⟩ :: below⟩
    else if r.action = action then moveDown action above (items ++ r.items) below
    else moveDown action (r :: above) items below

/-- Settles the edits of an action in the runs below, at most `fuel` runs of them. -/
def settleBelow (action : Action) : Nat → List (Run α) → List (Run α) → Script α
  | _, above, [] => above.reverse
  | 0, above, below => above.reverse ++ below
  | fuel + 1, above, r :: below =>
    if r.action = action then
      let up := moveUp action above r.items below
      let down := moveDown action up.above up.current.items up.below
      settleBelow action fuel (down.current :: down.above) down.below
    else settleBelow action fuel (r :: above) below

def Script.size (s : Script α) : Nat :=
  s.foldr (fun r n => r.items.length + n) 0

/-- Settles all edits of an action. Every edit is met once, and no more runs than elements
lie between two of them. -/
def settle (action : Action) (s : Script α) : Script α :=
  settleBelow action ((s.length + 1) * (s.size + s.length + 1)) [] s

def settled (s : Script α) : Script α :=
  settle .insert (settle .delete s)

end Slide

end Workyard.Diff
