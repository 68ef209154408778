import Workyard.Proofs.Path.Fragments

/-!
# Joining any number of fragments

Fragments are glued with slashes and the whole is resolved. A leading part of the list may be
resolved first, since what is left of it stands for it. What comes out has one form: an optional
slash, segments that climb where there is nothing to climb from, names, and an optional slash.
-/

namespace Workyard.Path

set_option autoImplicit false

open Text
open FilePath (countsWithin)

variable {absolute trailing : Bool} {path : List Char} {names segments : List (List Char)}

/-! ### Glued fragments -/

/-- Paths as one, with slashes between those that say something. -/
def glueAll (paths : List (List Char)) : List Char :=
  paths.foldr glue []

theorem glue_nil_left (path : List Char) : glue [] path = path :=
  if_pos rfl

theorem glue_nil_right (path : List Char) : glue path [] = path := by
  unfold glue
  split
  · rename_i h
    exact h.symm
  · exact if_pos rfl

theorem glueAll_append (ps qs : List (List Char)) :
    glueAll (ps ++ qs) = glue (glueAll ps) (glueAll qs) := by
  induction ps with
  | nil => exact (glue_nil_left _).symm
  | cons p ps ih => exact (congrArg (glue p) ih).trans (glue_assoc p (glueAll ps) (glueAll qs))

theorem glueAll_ne_nil {ps : List (List Char)} {p : List Char} (h : p ∈ ps) (hp : p ≠ []) :
    glueAll ps ≠ [] := by
  obtain ⟨before, after, rfl⟩ := List.append_of_mem h
  rw [glueAll_append]
  exact glue_ne_nil_right (glue_ne_nil_left hp)

theorem glueAll_filter (ps : List (List Char)) : glueAll (ps.filter (· ≠ [])) = glueAll ps := by
  induction ps with
  | nil => rfl
  | cons p ps ih =>
    by_cases hp : p = []
    · rw [List.filter_cons_of_neg (by simpa using hp), ih, hp]
      exact (glue_nil_left _).symm
    · rw [List.filter_cons_of_pos (by simpa using hp)]
      exact congrArg (glue p) ih

theorem joinWith_eq_glueAll {ps : List (List Char)} (h : ∀ p ∈ ps, p ≠ []) :
    joinWith ['/'] ps = glueAll ps := by
  induction ps with
  | nil => rfl
  | cons p ps ih =>
    have ih := ih fun q hq => h q (List.mem_cons_of_mem _ hq)
    by_cases hps : ps = []
    · subst hps
      exact (glue_nil_right p).symm
    · obtain ⟨q, qs, rfl⟩ := List.exists_cons_of_ne_nil hps
      have hrest : glueAll (q :: qs) ≠ [] := glueAll_ne_nil List.mem_cons_self (h q (by simp))
      rw [joinWith_cons_of_ne_nil hps, ih]
      show p ++ ['/'] ++ glueAll (q :: qs) = glue p (glueAll (q :: qs))
      rw [glue, if_neg (h p List.mem_cons_self), if_neg hrest, List.append_assoc]
      rfl

theorem map_joinWith (f : Char → Char) (sep : List Char) (ps : List (List Char)) :
    (joinWith sep ps).map f = joinWith (sep.map f) (ps.map (List.map f)) := by
  induction ps with
  | nil => rfl
  | cons p ps ih =>
    by_cases hps : ps = []
    · subst hps
      rfl
    · have hmap : ps.map (List.map f) ≠ [] := by simpa using hps
      rw [List.map_cons, joinWith_cons_of_ne_nil hps, joinWith_cons_of_ne_nil hmap, ← ih,
        List.map_append, List.map_append]

theorem map_filter_ne_nil (f : Char → Char) (ps : List (List Char)) :
    (ps.filter (· ≠ [])).map (List.map f) = (ps.map (List.map f)).filter (· ≠ []) := by
  have hempty : (fun p : List Char => decide (p ≠ [])) ∘ List.map f = fun p => decide (p ≠ []) := by
    funext p
    simp
  rw [List.filter_map, hempty]

/-- The fragments as one path, not yet resolved. -/
def glued (fragments : List String) : List Char :=
  glueAll (fragments.map slashes)

theorem glued_append (xs ys : List String) : glued (xs ++ ys) = glue (glued xs) (glued ys) := by
  rw [glued, List.map_append, glueAll_append]
  rfl

theorem toList_joinFragments_eq (fragments : List String) :
    (joinFragments fragments).toList = normalize (glued fragments) := by
  have hslash : ['/'].map slashed = ['/'] := rfl
  have hslashes : (fragments.map String.toList).map (List.map slashed) = fragments.map slashes := by
    rw [List.map_map]
    rfl
  unfold joinFragments
  rw [String.toList_ofList, map_joinWith, hslash, map_filter_ne_nil, hslashes,
    joinWith_eq_glueAll fun p hp => by simpa using (List.mem_filter.mp hp).2, glueAll_filter]
  rfl

theorem backslash_not_mem_glued (fragments : List String) : '\\' ∉ glued fragments := by
  induction fragments with
  | nil => exact List.not_mem_nil
  | cons f fs ih => exact backslash_not_mem_glue (backslash_not_mem_slashes f) ih

theorem glued_ne_nil {xs : List String} (h : ∃ x ∈ xs, x ≠ "") : glued xs ≠ [] := by
  obtain ⟨x, hx, hne⟩ := h
  exact glueAll_ne_nil (List.mem_map_of_mem hx) (mt slashes_eq_nil.mp hne)

theorem glued_joinFragments (xs : List String) : glued [joinFragments xs] = normalize (glued xs) := by
  have hslashes : slashes (joinFragments xs) = normalize (glued xs) := by
    rw [slashes_eq_self, toList_joinFragments_eq]
    rw [toList_joinFragments_eq]
    exact backslash_not_mem_normalize (backslash_not_mem_glued xs)
  exact (glue_nil_right _).trans hslashes

/-- A leading part of the fragments may be joined first, unless it says nothing at all. -/
theorem joinFragments_stepwise {xs : List String} (h : ∃ x ∈ xs, x ≠ "") (ys : List String) :
    joinFragments ([joinFragments xs] ++ ys) = joinFragments (xs ++ ys) ∧
      joinFragments [joinFragments xs] = joinFragments xs := by
  have hstep : ∀ ys, joinFragments ([joinFragments xs] ++ ys) = joinFragments (xs ++ ys) := by
    intro ys
    apply String.toList_injective
    rw [toList_joinFragments_eq, toList_joinFragments_eq, glued_append, glued_append,
      glued_joinFragments, normalize_glue_left (glued_ne_nil h)]
  refine ⟨hstep ys, ?_⟩
  have hnone := hstep []
  rwa [List.append_nil, List.append_nil] at hnone

/-- A part that climbs above its start, and fragments after it that climb on. -/
theorem joinFragments_stepwise_climbing :
    (∃ x ∈ ["", "a\\..", "../b/"], x ≠ "") ∧
      joinFragments ([joinFragments ["", "a\\..", "../b/"]] ++ ["..\\..", "", "/c"]) =
          joinFragments (["", "a\\..", "../b/"] ++ ["..\\..", "", "/c"]) ∧
        joinFragments [joinFragments ["", "a\\..", "../b/"]] =
          joinFragments ["", "a\\..", "../b/"] := by
  have h : ∃ x ∈ ["", "a\\..", "../b/"], x ≠ "" := ⟨"../b/", by simp, by decide⟩
  exact ⟨h, joinFragments_stepwise h ["..\\..", "", "/c"]⟩

end Workyard.Path
