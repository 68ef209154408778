import Workyard.Diff.Middle

/-!
# Shortest scripts

What both lists begin and end with is kept. What is left is divided at a place that a shortest
path goes through, and the parts are treated in the same way. The script found is one from
the old list to the new one, wherever the lists are divided.
-/

namespace Workyard.Diff

set_option autoImplicit false

variable {α : Type} [DecidableEq α]

/-- A division that leaves elements on both sides. -/
def isProper (as bs : List α) (p : Place) : Bool :=
  p.old ≤ as.length && p.new ≤ bs.length && 0 < p.old + p.new &&
    p.old + p.new < as.length + bs.length

/-- A script for lists that neither begin nor end alike, with `within` for their parts. -/
def between (within : (as bs : List α) → Script α) (as bs : List α) : Script α :=
  if bs.isEmpty then Script.single .delete as
  else if as.isEmpty then Script.single .insert bs
  else
    match (Grid.ofLists as bs).middle? with
    | none => Script.single .delete as ++ Script.single .insert bs
    | some p =>
      if isProper as bs p then
        within (as.take p.old) (bs.take p.new) ++ within (as.drop p.old) (bs.drop p.new)
      else Script.single .delete as ++ Script.single .insert bs

/-- A script from one list to another that divides them at most `fuel` times. -/
def scriptWithin : Nat → List α → List α → Script α
  | 0, as, bs => Script.single .delete as ++ Script.single .insert bs
  | fuel + 1, as, bs =>
    let n := commonLength as bs
    let as' := as.drop n
    let bs' := bs.drop n
    let m := commonEnd as' bs'
    Script.single .keep (as.take n) ++
      between (scriptWithin fuel) (as'.take (as'.length - m)) (bs'.take (bs'.length - m)) ++
      Script.single .keep (as'.drop (as'.length - m))

/-- A script from one list to another. Every division leaves smaller parts, so that there are
no more of them than elements. -/
def script (as bs : List α) : Script α :=
  scriptWithin (as.length + bs.length + 1) as bs

def Joins (as bs : List α) (s : Script α) : Prop :=
  s.old = as ∧ s.new = bs

omit [DecidableEq α] in
theorem joins_replace (as bs : List α) :
    Joins as bs (Script.single .delete as ++ Script.single .insert bs) := by
  simp [Joins, Script.old_single, Script.new_single]

theorem joins_between {within : List α → List α → Script α}
    (h : ∀ as bs, Joins as bs (within as bs)) (as bs : List α) :
    Joins as bs (between within as bs) := by
  unfold between
  split
  · rename_i hb
    simp_all [Joins, Script.old_single, Script.new_single]
  · split
    · rename_i ha
      simp_all [Joins, Script.old_single, Script.new_single]
    · split
      · exact joins_replace as bs
      · rename_i p _
        split
        · obtain ⟨h₁, h₂⟩ := h (as.take p.old) (bs.take p.new)
          obtain ⟨h₃, h₄⟩ := h (as.drop p.old) (bs.drop p.new)
          simp [Joins, h₁, h₂, h₃, h₄]
        · exact joins_replace as bs

theorem drop_commonEnd (as bs : List α) :
    as.drop (as.length - commonEnd as bs) = bs.drop (bs.length - commonEnd as bs) := by
  have h := congrArg List.reverse (take_commonLength as.reverse bs.reverse)
  simpa [commonEnd, List.take_reverse] using h

theorem joins_scriptWithin (fuel : Nat) (as bs : List α) :
    Joins as bs (scriptWithin fuel as bs) := by
  induction fuel generalizing as bs with
  | zero => exact joins_replace as bs
  | succ fuel ih =>
    simp only [scriptWithin]
    obtain ⟨h₁, h₂⟩ := joins_between (fun as bs => ih as bs)
      ((as.drop (commonLength as bs)).take ((as.drop (commonLength as bs)).length -
        commonEnd (as.drop (commonLength as bs)) (bs.drop (commonLength as bs))))
      ((bs.drop (commonLength as bs)).take ((bs.drop (commonLength as bs)).length -
        commonEnd (as.drop (commonLength as bs)) (bs.drop (commonLength as bs))))
    constructor
    · simp only [Script.old_append, Script.old_single, h₁, reduceCtorEq, if_false]
      rw [List.append_assoc, List.take_append_drop, List.take_append_drop]
    · simp only [Script.new_append, Script.new_single, h₂, reduceCtorEq, if_false]
      rw [drop_commonEnd, take_commonLength, List.append_assoc, List.take_append_drop,
        List.take_append_drop]

theorem joins_script (as bs : List α) : Joins as bs (script as bs) :=
  joins_scriptWithin _ as bs

end Workyard.Diff
