import Workyard.Diff.Settled

/-!
# Settling

Settling a script moves its edits over kept elements and past each other. The script still goes
from the same list to the same one.
-/

namespace Workyard.Diff

set_option autoImplicit false

variable {α : Type} {a : Action} {r : Run α} {s s' t t' : Script α}

/-- Scripts from the same list to the same one. -/
def Script.Same (s t : Script α) : Prop :=
  s.old = t.old ∧ s.new = t.new

namespace Script.Same

theorem refl (s : Script α) : s.Same s := ⟨rfl, rfl⟩

theorem symm (h : s.Same t) : t.Same s := ⟨h.1.symm, h.2.symm⟩

theorem trans {u : Script α} (h : s.Same t) (h' : t.Same u) : s.Same u :=
  ⟨h.1.trans h'.1, h.2.trans h'.2⟩

theorem append (h : s.Same t) (h' : s'.Same t') : (s ++ s').Same (t ++ t') := by
  constructor
  · rw [old_append, old_append, h.1, h'.1]
  · rw [new_append, new_append, h.2, h'.2]

theorem joins {as bs : List α} (h : s.Same t) (ht : Joins as bs t) : Joins as bs s :=
  ⟨h.1.trans ht.1, h.2.trans ht.2⟩

end Script.Same

/-! ### What a move does -/

theorem same_keepBefore (items : List α) (rs : List (Run α)) :
    Script.Same (keepBefore items rs) (⟨.keep, items⟩ :: rs) := by
  unfold keepBefore
  split
  · simp [Script.Same, Run.old, Run.new]
  · split
    · simp_all [Script.Same, Run.old, Run.new]
    · exact .refl _

theorem same_keepAfter (items : List α) (rs : List (Run α)) :
    Script.Same (keepAfter items rs).reverse (rs.reverse ++ [⟨.keep, items⟩]) := by
  unfold keepAfter
  split
  · simp [Script.Same, Run.old, Run.new]
  · split
    · simp_all [Script.Same, Run.old, Run.new]
    · simp [Script.Same]

theorem same_united (xs ys : List α) :
    Script.Same [⟨a, xs⟩, ⟨a, ys⟩] [⟨a, xs ++ ys⟩] := by
  cases a <;> simp [Script.Same, Run.old, Run.new]

/-- A deletion and an insertion change places. -/
theorem same_past (ha : a ≠ .keep) (hr : r.action ≠ .keep) (hne : r.action ≠ a) (items : List α) :
    Script.Same [r, ⟨a, items⟩] [⟨a, items⟩, r] := by
  obtain ⟨b, xs⟩ := r
  cases a <;> cases b <;> simp_all [Script.Same, Run.old, Run.new]

variable [DecidableEq α]

theorem slide_spec (passed kept edit : List α) : ∃ more,
    (slide passed kept edit).passed = passed ++ more ∧
      kept = more ++ (slide passed kept edit).kept ∧
        edit ++ kept = more ++ (slide passed kept edit).edit ++ (slide passed kept edit).kept := by
  induction kept generalizing passed edit with
  | nil => exact ⟨[], by simp [slide], by simp [slide], by simp [slide]⟩
  | cons k ks ih =>
    cases edit with
    | nil => exact ⟨[], by simp [slide], by simp [slide], by simp [slide]⟩
    | cons e es =>
      by_cases hke : k = e
      · obtain ⟨more, hpassed, hkept, hedit⟩ := ih (passed ++ [e]) (es ++ [k])
        refine ⟨e :: more, ?_, ?_, ?_⟩
        · simpa [slide, hke] using hpassed
        · simpa [slide, hke] using hkept
        · simpa [slide, hke] using hedit
      · exact ⟨[], by simp [slide, hke], by simp [slide, hke], by simp [slide, hke]⟩

theorem slideBy_spec (a : Action) (kept edit : List α) :
    kept = (slideBy a kept edit).passed ++ (slideBy a kept edit).kept ∧
      edit ++ kept = (slideBy a kept edit).passed ++ (slideBy a kept edit).edit ++
        (slideBy a kept edit).kept := by
  unfold slideBy
  split
  · obtain ⟨more, hpassed, hkept, hedit⟩ := slide_spec [] kept edit
    rw [hpassed, List.nil_append]
    exact ⟨hkept, hedit⟩
  · simp

/-- An edit that slides down leaves what it has passed above. -/
theorem same_slidDown (ha : a ≠ .keep) (kept edit : List α) :
    Script.Same [⟨a, edit⟩, ⟨.keep, kept⟩] [⟨.keep, (slideBy a kept edit).passed⟩,
      ⟨a, (slideBy a kept edit).edit⟩, ⟨.keep, (slideBy a kept edit).kept⟩] := by
  obtain ⟨hkept, hedit⟩ := slideBy_spec a kept edit
  rw [List.append_assoc] at hedit
  cases a with
  | keep => exact absurd rfl ha
  | delete => simp [Script.Same, Run.old, Run.new, hedit, ← hkept]
  | insert => simp [Script.Same, Run.old, Run.new, hedit, ← hkept]

/-- An edit that slides up leaves what it has passed below. -/
theorem same_slidUp (ha : a ≠ .keep) (kept edit : List α) :
    Script.Same [⟨.keep, kept⟩, ⟨a, edit⟩]
      [⟨.keep, (slideBy a kept.reverse edit.reverse).kept.reverse⟩,
        ⟨a, (slideBy a kept.reverse edit.reverse).edit.reverse⟩,
        ⟨.keep, (slideBy a kept.reverse edit.reverse).passed.reverse⟩] := by
  obtain ⟨hkept, hedit⟩ := slideBy_spec a kept.reverse edit.reverse
  have hkept := congrArg List.reverse hkept
  have hedit := congrArg List.reverse hedit
  simp only [List.reverse_reverse, List.reverse_append] at hkept hedit
  cases a with
  | keep => exact absurd rfl ha
  | delete => simp [Script.Same, Run.old, Run.new, hedit, ← hkept]
  | insert => simp [Script.Same, Run.old, Run.new, hedit, ← hkept]

/-! ### Moving an edit -/

/-- The script around a run. -/
def Focus.whole (f : Focus α) : Script α :=
  f.above.reverse ++ f.current :: f.below

omit [DecidableEq α] in
theorem same_nothing_kept (s : Script α) : Script.Same s (⟨.keep, []⟩ :: s) := by
  simp [Script.Same, Run.old, Run.new]

theorem same_slidUp_before (ha : a ≠ .keep) (kept edit : List α) (below : List (Run α)) :
    Script.Same (⟨.keep, (slideBy a kept.reverse edit.reverse).kept.reverse⟩ ::
      ⟨a, (slideBy a kept.reverse edit.reverse).edit.reverse⟩ ::
        keepBefore (slideBy a kept.reverse edit.reverse).passed.reverse below)
      (⟨.keep, kept⟩ :: ⟨a, edit⟩ :: below) :=
  (Script.Same.append (.refl [_, _]) (same_keepBefore _ below)).trans
    ((same_slidUp ha kept edit).symm.append (.refl below))

theorem same_slidDown_after (ha : a ≠ .keep) (kept edit : List α) (above : List (Run α)) :
    Script.Same ((keepAfter (slideBy a kept edit).passed above).reverse ++
      [⟨a, (slideBy a kept edit).edit⟩, ⟨.keep, (slideBy a kept edit).kept⟩])
      (above.reverse ++ [⟨a, edit⟩, ⟨.keep, kept⟩]) := by
  refine (Script.Same.append (same_keepAfter _ above) (.refl _)).trans ?_
  rw [List.append_assoc]
  exact .append (.refl _) (same_slidDown ha kept edit).symm

theorem moveUp_spec (ha : a ≠ .keep) (above : List (Run α)) (items : List α)
    (below : List (Run α)) :
    (moveUp a above items below).current.action = a ∧
      (moveUp a above items below).whole.Same (above.reverse ++ ⟨a, items⟩ :: below) := by
  induction above generalizing items below with
  | nil => exact ⟨rfl, .refl _⟩
  | cons r above ih =>
    obtain ⟨b, kept⟩ := r
    rw [List.reverse_cons, List.append_assoc]
    unfold moveUp
    by_cases hkeep : b = .keep
    · subst hkeep
      have hslid := same_slidUp_before ha kept items below
      simp only [if_true]
      split
      · rename_i hempty
        rw [List.isEmpty_iff.mp hempty] at hslid
        obtain ⟨haction, hsame⟩ := ih (slideBy a kept.reverse items.reverse).edit.reverse
          (keepBefore (slideBy a kept.reverse items.reverse).passed.reverse below)
        exact ⟨haction, hsame.trans (.append (.refl _) ((same_nothing_kept _).trans hslid))⟩
      · refine ⟨rfl, ?_⟩
        simp only [Focus.whole, List.reverse_cons, List.append_assoc]
        exact .append (.refl _) hslid
    · simp only [hkeep, if_false]
      split
      · rename_i heq
        subst heq
        obtain ⟨haction, hsame⟩ := ih (kept ++ items) below
        exact ⟨haction, hsame.trans (.append (.refl _)
          ((same_united kept items).symm.append (.refl below)))⟩
      · rename_i hne
        obtain ⟨haction, hsame⟩ := ih items (⟨b, kept⟩ :: below)
        exact ⟨haction, hsame.trans (.append (.refl _)
          ((same_past ha hkeep hne items).symm.append (.refl below)))⟩

theorem moveDown_spec (ha : a ≠ .keep) (above : List (Run α)) (items : List α)
    (below : List (Run α)) :
    (moveDown a above items below).whole.Same (above.reverse ++ ⟨a, items⟩ :: below) := by
  induction below generalizing items above with
  | nil => exact .refl _
  | cons r below ih =>
    obtain ⟨b, kept⟩ := r
    unfold moveDown
    by_cases hkeep : b = .keep
    · subst hkeep
      have hslid := (same_slidDown_after ha kept items above).append (.refl below)
      simp only [List.append_assoc] at hslid
      simp only [if_true]
      split
      · rename_i hempty
        rw [List.isEmpty_iff.mp hempty] at hslid
        refine (ih _ _).trans (.trans ?_ hslid)
        exact .append (.refl _) (.append (.refl [_]) (same_nothing_kept below))
      · exact hslid
    · simp only [hkeep, if_false]
      split
      · rename_i heq
        subst heq
        exact (ih above (items ++ kept)).trans (.append (.refl _)
          ((same_united items kept).symm.append (.refl below)))
      · rename_i hne
        have hsame := ih (⟨b, kept⟩ :: above) items
        rw [List.reverse_cons, List.append_assoc] at hsame
        exact hsame.trans (.append (.refl _)
          ((same_past ha hkeep hne items).append (.refl below)))

/-! ### Settling all edits -/

theorem same_settleBelow (ha : a ≠ .keep) (fuel : Nat) (above below : List (Run α)) :
    (settleBelow a fuel above below).Same (above.reverse ++ below) := by
  induction fuel generalizing above below with
  | zero =>
    cases below with
    | nil => simpa [settleBelow] using Script.Same.refl _
    | cons r below => exact .refl _
  | succ fuel ih =>
    cases below with
    | nil => simpa [settleBelow] using Script.Same.refl _
    | cons r below =>
      obtain ⟨b, items⟩ := r
      unfold settleBelow
      by_cases hb : b = a
      · subst hb
        obtain ⟨haction, hup⟩ := moveUp_spec ha above items below
        have hdown := moveDown_spec ha (moveUp b above items below).above
          (moveUp b above items below).current.items (moveUp b above items below).below
        have hcurrent : (⟨b, (moveUp b above items below).current.items⟩ : Run α) =
            (moveUp b above items below).current :=
          congrArg (Run.mk · (moveUp b above items below).current.items) haction.symm
        rw [hcurrent] at hdown
        simp only [if_true]
        refine (ih _ _).trans ?_
        rw [List.reverse_cons, List.append_assoc]
        exact hdown.trans hup
      · simp only [hb, if_false]
        refine (ih _ _).trans ?_
        rw [List.reverse_cons, List.append_assoc]
        exact .refl _

theorem same_settle (ha : a ≠ .keep) (s : Script α) : (settle a s).Same s :=
  same_settleBelow ha _ [] s

theorem joins_settled {as bs : List α} (h : Joins as bs s) : Joins as bs (settled s) :=
  ((same_settle (by decide) _).trans (same_settle (by decide) s)).joins h

end Workyard.Diff
