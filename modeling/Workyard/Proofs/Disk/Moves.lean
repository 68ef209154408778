import Workyard.Proofs.Disk.View

/-!
# Moves and their undoing

Moves are carried out in order and undone from the last one on; where there is nothing to move,
undoing does nothing. What stood at a location comes back just when none of the moves has put
something else over it on its way. In between, locations to which nothing moves may have come to
hold anything.
-/

namespace Workyard.Disk

set_option autoImplicit false

/-- From one location to another. -/
abbrev Move := Location × Location

namespace View

def moveAll : View → List Move → View
  | v, [] => v
  | v, (a, b) :: moves => moveAll (v.move a b) moves

/-- Undoes moves from the last one on. -/
def moveBack (w : View) : List Move → View
  | [] => w
  | (a, b) :: moves =>
    let u := moveBack w moves
    if u b = none then u else u.move b a

/-- Every move finds something to move. -/
def Allows : View → List Move → Prop
  | _, [] => True
  | v, (a, b) :: moves => v a ≠ none ∧ Allows (v.move a b) moves

end View

/-- Whether what stands at a location is still there after the moves, wherever they take it: a
move onto it puts something else in its place. -/
def survives : List Move → Location → Bool
  | [], _ => true
  | (a, b) :: moves, l =>
    if l = a then survives moves b
    else if l = b then false
    else survives moves l

namespace View

variable {v w : View} {a b l : Location} {moves : List Move}

theorem moveAll_append (v : View) (moves moves' : List Move) :
    v.moveAll (moves ++ moves') = (v.moveAll moves).moveAll moves' := by
  induction moves generalizing v with
  | nil => rfl
  | cons m moves ih => exact ih _

theorem Allows.of_append {moves' : List Move} (h : v.Allows (moves ++ moves')) :
    v.Allows moves := by
  induction moves generalizing v with
  | nil => trivial
  | cons m moves ih => exact ⟨h.1, ih h.2⟩

theorem Allows.rest {moves' : List Move} (h : v.Allows (moves ++ moves')) :
    (v.moveAll moves).Allows moves' := by
  induction moves generalizing v with
  | nil => exact h
  | cons m moves ih => exact ih h.2

/-- Nothing is moved away from where there is nothing and nothing comes. -/
theorem Allows.not_mem_sources (h : v.Allows moves) (hl : v l = none)
    (ht : l ∉ moves.map Prod.snd) : l ∉ moves.map Prod.fst := by
  induction moves generalizing v with
  | nil => simp
  | cons m moves ih =>
    obtain ⟨a, b⟩ := m
    simp only [List.map_cons, List.mem_cons, not_or] at ht ⊢
    have hla : l ≠ a := by
      rintro rfl
      exact h.1 hl
    refine ⟨hla, ih h.2 ?_ ht.2⟩
    rw [move_of_ne hla ht.1, hl]

/-- Files that do not move onto each other's places move only once. -/
theorem Allows.nodup (h : v.Allows moves)
    (hapart : ∀ l ∈ moves.map Prod.fst, l ∉ moves.map Prod.snd) :
    (moves.map Prod.fst).Nodup := by
  induction moves generalizing v with
  | nil => exact List.nodup_nil
  | cons m moves ih =>
    obtain ⟨a, b⟩ := m
    simp only [List.map_cons, List.mem_cons, not_or, forall_eq_or_imp] at hapart
    obtain ⟨⟨hab, ha⟩, hrest⟩ := hapart
    exact List.nodup_cons.mpr ⟨h.2.not_mem_sources (move_source hab) ha,
      ih h.2 fun l hl => (hrest l hl).2⟩

theorem moveAll_of_not_mem (hs : l ∉ moves.map Prod.fst) (ht : l ∉ moves.map Prod.snd) :
    v.moveAll moves l = v l := by
  induction moves generalizing v with
  | nil => rfl
  | cons m moves ih =>
    obtain ⟨a, b⟩ := m
    simp only [List.map_cons, List.mem_cons, not_or] at hs ht
    rw [moveAll, ih hs.2 ht.2, move_of_ne hs.1 ht.1]

theorem moveAll_of_nothing (hl : v l = none) (ht : l ∉ moves.map Prod.snd) :
    v.moveAll moves l = none := by
  induction moves generalizing v with
  | nil => exact hl
  | cons m moves ih =>
    obtain ⟨a, b⟩ := m
    simp only [List.map_cons, List.mem_cons, not_or] at ht
    refine ih ?_ ht.2
    by_cases hla : l = a
    · subst l
      exact move_source ht.1
    · rw [move_of_ne hla ht.1, hl]

theorem moveAll_source (hs : l ∈ moves.map Prod.fst) (ht : l ∉ moves.map Prod.snd) :
    v.moveAll moves l = none := by
  induction moves generalizing v with
  | nil => simp at hs
  | cons m moves ih =>
    obtain ⟨a, b⟩ := m
    simp only [List.map_cons, List.mem_cons, not_or] at hs ht
    by_cases hla : l = a
    · subst l
      rw [moveAll]
      exact moveAll_of_nothing (move_source ht.1) ht.2
    · exact ih (hs.resolve_left hla) ht.2

/-- What is moved only once, and not moved onto before or after, arrives. -/
theorem moveAll_target (hs : (moves.map Prod.fst).Nodup) (ht : (moves.map Prod.snd).Nodup)
    (hm : (a, b) ∈ moves) (ha : a ∉ moves.map Prod.snd) (hb : b ∉ moves.map Prod.fst) :
    v.moveAll moves b = v a := by
  induction moves generalizing v with
  | nil => simp at hm
  | cons m moves ih =>
    simp only [List.map_cons, List.nodup_cons, List.mem_cons, not_or] at hs ht ha hb
    rcases List.mem_cons.mp hm with rfl | hrest
    · rw [moveAll, moveAll_of_not_mem hb.2 ht.1, move_target]
    · obtain ⟨a', b'⟩ := m
      have hne : a ≠ a' := by
        rintro rfl
        exact hs.1 (List.mem_map.mpr ⟨_, hrest, rfl⟩)
      rw [moveAll, ih hs.2 ht.2 hrest ha.2 hb.2, move_of_ne hne ha.1]

/-- What nothing moves onto comes to rest, there or where it is moved to. -/
theorem moveAll_rests (ht : (moves.map Prod.snd).Nodup) (hl : l ∉ moves.map Prod.snd) :
    ∃ m, (m = l ∨ m ∈ moves.map Prod.snd) ∧ v.moveAll moves m = v l := by
  induction moves generalizing v l with
  | nil => exact ⟨l, .inl rfl, rfl⟩
  | cons m moves ih =>
    obtain ⟨a, b⟩ := m
    simp only [List.map_cons, List.nodup_cons, List.mem_cons, not_or] at ht hl ⊢
    by_cases hla : l = a
    · subst l
      obtain ⟨m, hm, hrests⟩ := @ih (v.move a b) b ht.2 ht.1
      exact ⟨m, .inr hm, hrests.trans move_target⟩
    · obtain ⟨m, hm, hrests⟩ := @ih (v.move a b) l ht.2 hl.2
      exact ⟨m, hm.imp_right .inr, hrests.trans (move_of_ne hla hl.1)⟩

/-- What comes from one place only, and goes away again, is gone if nothing comes to that place. -/
theorem moveAll_passing {before after : List Move} (h : v.Allows (before ++ (l, b) :: after))
    (hl : v l = none) (hb : l ≠ b)
    (hfrom : ∀ m ∈ before, ∀ m' ∈ after, m.2 = l → m'.2 = l → m.1 = m'.1)
    (hquiet : ∀ m ∈ before, m.1 ∉ (before ++ (l, b) :: after).map Prod.snd) :
    v.moveAll (before ++ (l, b) :: after) l = none := by
  have hcame : l ∈ before.map Prod.snd := by
    apply Classical.byContradiction
    intro hnot
    exact h.rest.1 (moveAll_of_nothing hl hnot)
  obtain ⟨m, hm, hml⟩ := List.mem_map.mp hcame
  have hm' := hquiet m hm
  rw [List.map_append, List.mem_append, not_or] at hm'
  have hempty : v.moveAll before m.1 = none := moveAll_source (List.mem_map_of_mem hm) hm'.1
  have hleft := h.rest.not_mem_sources hempty hm'.2
  rw [moveAll_append]
  apply moveAll_source List.mem_cons_self
  simp only [List.map_cons, List.mem_cons, not_or]
  refine ⟨hb, fun hagain => ?_⟩
  obtain ⟨m', hmem, hm'l⟩ := List.mem_map.mp hagain
  apply hleft
  rw [hfrom m hm m' hmem hml hm'l]
  exact List.mem_map_of_mem (List.mem_cons_of_mem _ hmem)

/-- What is not moved onto survives if no two moves go to one location. -/
theorem survives_of_not_target (hnodup : (moves.map Prod.snd).Nodup)
    (hl : l ∉ moves.map Prod.snd) : survives moves l := by
  induction moves generalizing l with
  | nil => rfl
  | cons m moves ih =>
    obtain ⟨a, b⟩ := m
    simp only [List.map_cons, List.nodup_cons, List.mem_cons, not_or] at hnodup hl
    unfold survives
    split
    · exact ih hnodup.2 hnodup.1
    · rw [if_neg hl.1]
      exact ih hnodup.2 hl.2

theorem moveBack_source :
    w.moveBack ((a, b) :: moves) a =
      if w.moveBack moves b = none then w.moveBack moves a else w.moveBack moves b := by
  simp only [moveBack]
  split
  · rfl
  · exact move_target

theorem moveBack_target (h : b ≠ a) : w.moveBack ((a, b) :: moves) b = none := by
  simp only [moveBack]
  split
  · assumption
  · exact move_source h

theorem moveBack_of_ne (ha : l ≠ a) (hb : l ≠ b) :
    w.moveBack ((a, b) :: moves) l = w.moveBack moves l := by
  simp only [moveBack]
  split
  · rfl
  · exact move_of_ne hb ha

section Loose

variable {loose : Location → Prop} (ht : ∀ m ∈ moves, ¬ loose m.2)
variable (hw : ∀ l, ¬ loose l → w l = v.moveAll moves l)
include ht hw

theorem moveBack_apply (hv : v.Allows moves) (hl : ¬ loose l) :
    w.moveBack moves l = if survives moves l then v l else none := by
  induction moves generalizing v l with
  | nil => simpa [survives, moveBack, moveAll] using hw l hl
  | cons m moves ih =>
    obtain ⟨a, b⟩ := m
    have ht' : ∀ m ∈ moves, ¬ loose m.2 := fun m hm => ht m (List.mem_cons_of_mem _ hm)
    have hb : w.moveBack moves b = if survives moves b then v a else none := by
      rw [ih ht' hw hv.2 (ht (a, b) List.mem_cons_self), move_target]
    unfold survives
    by_cases hla : l = a
    · subst l
      rw [moveBack_source, if_pos rfl, hb]
      by_cases hs : survives moves b
      · simp [hs, hv.1]
      · by_cases hab : a = b
        · subst b
          simp [hs, hb]
        · rw [ih ht' hw hv.2 hl, move_source hab]
          simp [hs]
    · rw [if_neg hla]
      by_cases hlb : l = b
      · subst l
        rw [moveBack_target hla, if_pos rfl]
        rfl
      · rw [moveBack_of_ne hla hlb, if_neg hlb, ih ht' hw hv.2 hl, move_of_ne hla hlb]

/-- A location that holds anything goes back to what it held if it was moved away. -/
theorem moveBack_loose_source (hv : v.Allows moves) (hl : loose l) (hs : l ∈ moves.map Prod.fst)
    (hsurvives : survives moves l) : w.moveBack moves l = v l := by
  induction moves generalizing v with
  | nil => simp at hs
  | cons m moves ih =>
    obtain ⟨a, b⟩ := m
    have ht' : ∀ m ∈ moves, ¬ loose m.2 := fun m hm => ht m (List.mem_cons_of_mem _ hm)
    have hlb : l ≠ b := by
      rintro rfl
      exact ht (a, l) List.mem_cons_self hl
    unfold survives at hsurvives
    by_cases hla : l = a
    · subst l
      rw [if_pos rfl] at hsurvives
      have hb := moveBack_apply ht' hw hv.2 (ht (a, b) List.mem_cons_self)
      rw [hsurvives, if_pos rfl, move_target] at hb
      rw [moveBack_source, hb, if_neg hv.1]
    · rw [if_neg hla, if_neg hlb] at hsurvives
      have hmem : l ∈ moves.map Prod.fst := by simpa [hla] using hs
      rw [moveBack_of_ne hla hlb, ih ht' hw hv.2 hmem hsurvives, move_of_ne hla hlb]

end Loose

theorem moveBack_of_not_source (hs : l ∉ moves.map Prod.fst) (ht : l ∉ moves.map Prod.snd) :
    w.moveBack moves l = w l := by
  induction moves with
  | nil => rfl
  | cons m moves ih =>
    obtain ⟨a, b⟩ := m
    simp only [List.map_cons, List.mem_cons, not_or] at hs ht
    rw [moveBack_of_ne hs.1 ht.1, ih hs.2 ht.2]

end View

end Workyard.Disk
