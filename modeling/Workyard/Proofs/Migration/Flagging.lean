import Workyard.Migration.Flag
import Workyard.Proofs.Json.Paths
import Workyard.Proofs.Json.Spelling

/-!
# Flagged documents

Setting the flag of targets changes nothing else in a document, at whatever depth: the flag is
replaced in its place or comes last in its options, missing options come last in their target, and
a target of another shape is passed over. The order of the targets does not matter.
-/

namespace Workyard.Migration

set_option autoImplicit false

open Json

def flagPath (t : String) : List String :=
  ["targets", t, "options", standardFlag]

/-- The target is an object, and its options are missing or an object. -/
def TakesFlag (d : Json) (t : String) : Prop :=
  ∃ body : Members, d.at? ["targets", t] = some (.object body) ∧
    ∀ v, body.get? "options" = some v → ∃ os, v = .object os

/-- Keys with one more at the end, unless it is among them. -/
def withKey (key : String) (keys : List String) : List String :=
  if key ∈ keys then keys else keys ++ [key]

/-- `Flagged ts d d'`: the document `d'` is `d` with the flag in those of the targets `ts` that take
it, and nothing else is changed. -/
structure Flagged (ts : List String) (d d' : Json) : Prop where
  flag : ∀ t ∈ ts, TakesFlag d t → d'.at? (flagPath t) = some (.bool true)
  targetKeys : ∀ t ∈ ts, TakesFlag d t →
    d'.keysAt? ["targets", t] = (d.keysAt? ["targets", t]).map (withKey "options")
  optionKeys : ∀ t ∈ ts, TakesFlag d t → d'.keysAt? ["targets", t, "options"] =
    some (withKey standardFlag ((d.keysAt? ["targets", t, "options"]).getD []))
  otherKeys : ∀ path, (∀ t ∈ ts, TakesFlag d t → path ≠ ["targets", t] ∧
    path ≠ ["targets", t, "options"] ∧ ¬ flagPath t <+: path) → d'.keysAt? path = d.keysAt? path
  frame : ∀ path, (∀ t ∈ ts, TakesFlag d t → ¬ path <+: flagPath t ∧ ¬ flagPath t <+: path) →
    d'.at? path = d.at? path

/-! ### One target -/

/-- The body of a target that takes the flag. -/
def TakesIn (v : Json) (body : Members) : Prop :=
  v = .object body ∧ ∀ o, body.get? "options" = some o → ∃ os, o = .object os

/-- Options that are missing count as empty ones. -/
def optionsOf (body : Members) : Members :=
  match body.get? "options" with
  | some (.object os) => os
  | _ => []

theorem takesIn_or_same (v : Json) : (∃ body, TakesIn v body) ∨ flagTarget v = v := by
  cases v with
  | object body =>
    cases ho : Members.get? "options" body with
    | none => exact .inl ⟨body, rfl, fun o h => by rw [ho] at h; exact absurd h (by simp)⟩
    | some o =>
      have hother : flagOptions o = o → flagTarget (.object body) = .object body := by
        intro hsame
        simp [flagTarget, ho, Members.modify_eq_set ho, hsame, Members.set_eq_self ho]
      cases o with
      | object os =>
        refine .inl ⟨body, rfl, fun o h => ?_⟩
        rw [ho] at h
        exact ⟨os, (Option.some.inj h).symm⟩
      | _ => exact .inr (hother rfl)
  | _ => exact .inr rfl

theorem flagTarget_of_takesIn {v : Json} {body : Members} (h : TakesIn v body) :
    flagTarget v =
      .object (body.set "options" (.object ((optionsOf body).set standardFlag (.bool true)))) := by
  obtain ⟨rfl, hoptions⟩ := h
  cases ho : body.get? "options" with
  | none => simp [flagTarget, optionsOf, ho, flagOptions]
  | some o =>
    obtain ⟨os, rfl⟩ := hoptions o ho
    simp [flagTarget, optionsOf, ho, Members.modify_eq_set ho, flagOptions]

theorem flagTarget_flagTarget (v : Json) : flagTarget (flagTarget v) = flagTarget v := by
  rcases takesIn_or_same v with ⟨body, h⟩ | hsame
  · have hafter : Members.get? "options"
        (body.set "options" (.object ((optionsOf body).set standardFlag (.bool true)))) =
          some (.object ((optionsOf body).set standardFlag (.bool true))) := by
      simp [Members.get?_set]
    have htakes : TakesIn (flagTarget v)
        (body.set "options" (.object ((optionsOf body).set standardFlag (.bool true)))) := by
      refine ⟨flagTarget_of_takesIn h, fun o ho => ?_⟩
      rw [hafter] at ho
      exact ⟨_, (Option.some.inj ho).symm⟩
    rw [flagTarget_of_takesIn htakes, flagTarget_of_takesIn h, optionsOf, hafter]
    simp only [Members.set_set]
  · rw [hsame, hsame]

/-- Away from the flag a target stays as it is. -/
theorem at?_flagTarget {v : Json} {path : List String} (hbefore : ¬ path <+: ["options", standardFlag])
    (hafter : ¬ ["options", standardFlag] <+: path) : (flagTarget v).at? path = v.at? path := by
  rcases takesIn_or_same v with ⟨body, h⟩ | hsame
  · rw [flagTarget_of_takesIn h, h.1]
    cases path with
    | nil => exact absurd (List.nil_prefix) hbefore
    | cons k path =>
      rw [at?_set]
      split
      · rename_i hk
        subst hk
        cases path with
        | nil => exact absurd ⟨[standardFlag], rfl⟩ hbefore
        | cons k path =>
          have hk : standardFlag ≠ k := by
            rintro rfl
            exact hafter ⟨path, rfl⟩
          rw [at?_set, if_neg hk, at?_cons_object]
          cases ho : body.get? "options" with
          | none => simp [optionsOf, ho, Members.get?]
          | some o =>
            obtain ⟨os, rfl⟩ := h.2 o ho
            simp [optionsOf, ho]
      · rfl
  · rw [hsame]

/-! ### Paths through flagged documents -/

theorem at?_target (t : String) (path : List String) (d : Json) :
    d.at? ("targets" :: t :: path) = (d.at? ["targets", t]).bind (at? path) :=
  at?_append ["targets", t] path d

theorem at?_flagTargets (t t' : String) (path : List String) (v : Json) :
    (flagTargets t v).at? (t' :: path) =
      if t = t' then (v.at? [t]).bind fun b => (flagTarget b).at? path
      else v.at? (t' :: path) := by
  cases v with
  | object ms => exact at?_modify flagTarget ms
  | _ => split <;> rfl

theorem at?_flagDocument (t k : String) (path : List String) (d : Json) :
    (flagDocument t d).at? (k :: path) =
      if "targets" = k then (d.at? ["targets"]).bind fun v => (flagTargets t v).at? path
      else d.at? (k :: path) := by
  cases d with
  | object ms => exact at?_modify (flagTargets t) ms
  | _ => split <;> rfl

theorem at?_flagDocument_target (t t' : String) (path : List String) (d : Json) :
    (flagDocument t d).at? ("targets" :: t' :: path) =
      if t = t' then (d.at? ["targets", t]).bind fun b => (flagTarget b).at? path
      else d.at? ("targets" :: t' :: path) := by
  rw [at?_flagDocument, if_pos rfl, at?_cons "targets" (t' :: path), at?_cons "targets" [t]]
  cases d.at? ["targets"] with
  | none => split <;> rfl
  | some v => exact at?_flagTargets t t' path v

theorem flagAll_cons (t : String) (ts : List String) (d : Json) :
    flagAll (t :: ts) d = flagAll ts (flagDocument t d) := rfl

theorem at?_flagAll_of_ne {k : String} (hk : k ≠ "targets") (path ts : List String) (d : Json) :
    (flagAll ts d).at? (k :: path) = d.at? (k :: path) := by
  induction ts generalizing d with
  | nil => rfl
  | cons t ts ih => rw [flagAll_cons, ih, at?_flagDocument, if_neg (Ne.symm hk)]

theorem at?_flagAll_target (t' : String) (path ts : List String) (d : Json) :
    (flagAll ts d).at? ("targets" :: t' :: path) =
      if t' ∈ ts then (d.at? ["targets", t']).bind fun b => (flagTarget b).at? path
      else d.at? ("targets" :: t' :: path) := by
  induction ts generalizing d with
  | nil => simp [flagAll]
  | cons t ts ih =>
    rw [flagAll_cons, ih, at?_flagDocument_target, at?_flagDocument_target]
    by_cases ht : t = t'
    · subst ht
      simp only [if_true, List.mem_cons_self]
      cases d.at? ["targets", t] with
      | none => split <;> rfl
      | some b => simp [flagTarget_flagTarget]
    · have ht' : ¬ t' = t := fun h => ht h.symm
      simp [ht, ht']

theorem keysAt?_flagAll_nil (ts : List String) (d : Json) :
    (flagAll ts d).keysAt? [] = d.keysAt? [] := by
  induction ts generalizing d with
  | nil => rfl
  | cons t ts ih =>
    rw [flagAll_cons, ih]
    cases d with
    | object ms => simp [flagDocument, keysAt?, object?, Members.keys_modify]
    | _ => rfl

theorem keysAt?_flagAll_targets (ts : List String) (d : Json) :
    (flagAll ts d).keysAt? ["targets"] = d.keysAt? ["targets"] := by
  induction ts generalizing d with
  | nil => rfl
  | cons t ts ih =>
    rw [flagAll_cons, ih]
    unfold keysAt?
    rw [at?_flagDocument, if_pos rfl]
    cases d.at? ["targets"] with
    | none => rfl
    | some v =>
      cases v with
      | object ms => simp [flagTargets, object?, Members.keys_modify]
      | _ => rfl

/-! ### Targets that do not take the flag -/

theorem takesFlag_iff {d : Json} {t : String} :
    TakesFlag d t ↔ ∃ b body, d.at? ["targets", t] = some b ∧ TakesIn b body := by
  constructor
  · rintro ⟨body, hbody, hoptions⟩
    exact ⟨_, body, hbody, rfl, hoptions⟩
  · rintro ⟨b, body, hb, rfl, hoptions⟩
    exact ⟨body, hb, hoptions⟩

theorem flagDocument_of_not_takes {d : Json} {t : String} (h : ¬ TakesFlag d t) :
    flagDocument t d = d := by
  cases d with
  | object ms =>
    have htargets : ∀ v, Members.get? "targets" ms = some v → flagTargets t v = v := by
      intro v hv
      cases v with
      | object bodies =>
        have hbody : ∀ b, Members.get? t bodies = some b → flagTarget b = b := by
          intro b hb
          rcases takesIn_or_same b with ⟨body, hbody⟩ | hsame
          · exact absurd (takesFlag_iff.mpr ⟨b, body, by simp [hv, hb], hbody⟩) h
          · exact hsame
        rw [flagTargets, Members.modify_eq_self hbody]
      | _ => rfl
    rw [flagDocument, Members.modify_eq_self htargets]
  | _ => rfl

theorem flagAll_of_not_takes {ts : List String} {d : Json} (h : ∀ t ∈ ts, ¬ TakesFlag d t) :
    flagAll ts d = d := by
  induction ts with
  | nil => rfl
  | cons t ts ih =>
    rw [flagAll_cons, flagDocument_of_not_takes (h t List.mem_cons_self)]
    exact ih fun t' ht' => h t' (List.mem_cons_of_mem t ht')

/-! ### All targets -/

theorem flagAll_frame {ts : List String} {d : Json} {path : List String}
    (h : ∀ t ∈ ts, TakesFlag d t → ¬ path <+: flagPath t ∧ ¬ flagPath t <+: path) :
    (flagAll ts d).at? path = d.at? path := by
  have hroot : (∀ t, path <+: flagPath t) → (flagAll ts d).at? path = d.at? path := by
    intro hleads
    rw [flagAll_of_not_takes fun t ht htakes => (h t ht htakes).1 (hleads t)]
  rcases path with _ | ⟨k, _ | ⟨t, path⟩⟩
  · exact hroot fun t => List.nil_prefix
  · by_cases hk : k = "targets"
    · subst hk
      exact hroot fun t => ⟨[t, "options", standardFlag], rfl⟩
    · exact at?_flagAll_of_ne hk [] ts d
  · by_cases hk : k = "targets"
    · subst hk
      rw [at?_flagAll_target]
      split
      · rename_i ht
        rw [at?_target t path d]
        cases hb : d.at? ["targets", t] with
        | none => rfl
        | some b =>
          rcases takesIn_or_same b with ⟨body, hbody⟩ | hsame
          · obtain ⟨hbefore, hafter⟩ := h t ht (takesFlag_iff.mpr ⟨b, body, hb, hbody⟩)
            refine at?_flagTarget ?_ ?_
            · rintro ⟨q, hq⟩
              exact hbefore ⟨q, by rw [flagPath, ← hq]; rfl⟩
            · rintro ⟨q, rfl⟩
              exact hafter ⟨q, rfl⟩
          · rw [Option.bind_some, Option.bind_some, hsame]
      · rfl
    · exact at?_flagAll_of_ne hk (t :: path) ts d

/-- A path that ends before the flag of a target leads to one of four places. -/
theorem prefix_flagPath {path : List String} {t : String} (h : path <+: flagPath t) :
    path = [] ∨ path = ["targets"] ∨ path = ["targets", t] ∨ path = ["targets", t, "options"] ∨
      path = flagPath t := by
  obtain ⟨rest, hrest⟩ := h
  unfold flagPath at hrest ⊢
  rcases path with _ | ⟨a, _ | ⟨b, _ | ⟨c, _ | ⟨e, path⟩⟩⟩⟩
  all_goals simp_all

theorem flagAll_otherKeys {ts : List String} {d : Json} {path : List String}
    (h : ∀ t ∈ ts, TakesFlag d t → path ≠ ["targets", t] ∧ path ≠ ["targets", t, "options"] ∧
      ¬ flagPath t <+: path) : (flagAll ts d).keysAt? path = d.keysAt? path := by
  by_cases hroot : path = []
  · subst hroot
    exact keysAt?_flagAll_nil ts d
  · by_cases htargets : path = ["targets"]
    · subst htargets
      exact keysAt?_flagAll_targets ts d
    · unfold keysAt?
      rw [flagAll_frame]
      intro t ht htakes
      obtain ⟨htarget, hoptions, hflag⟩ := h t ht htakes
      refine ⟨fun hleads => ?_, hflag⟩
      rcases prefix_flagPath hleads with heq | heq | heq | heq | heq
      · exact hroot heq
      · exact htargets heq
      · exact htarget heq
      · exact hoptions heq
      · exact hflag (heq ▸ List.prefix_refl _)

theorem flagged_flagAll (ts : List String) (d : Json) : Flagged ts d (flagAll ts d) where
  flag t ht htakes := by
    obtain ⟨b, body, hb, hbody⟩ := takesFlag_iff.mp htakes
    rw [flagPath, at?_flagAll_target, if_pos ht, hb, Option.bind_some, flagTarget_of_takesIn hbody]
    simp [Members.get?_set]
  targetKeys t ht htakes := by
    obtain ⟨b, body, hb, hbody⟩ := takesFlag_iff.mp htakes
    unfold keysAt?
    rw [at?_flagAll_target, if_pos ht, hb, Option.bind_some, flagTarget_of_takesIn hbody, hbody.1]
    simp [object?, Members.keys_set, withKey]
  optionKeys t ht htakes := by
    obtain ⟨b, body, hb, hbody⟩ := takesFlag_iff.mp htakes
    have hold : (d.keysAt? ["targets", t, "options"]).getD [] = Members.keys (optionsOf body) := by
      unfold keysAt?
      rw [at?_target t ["options"] d, hb, Option.bind_some, hbody.1]
      cases ho : Members.get? "options" body with
      | none => simp [optionsOf, ho]
      | some o =>
        obtain ⟨os, rfl⟩ := hbody.2 o ho
        simp [optionsOf, ho, object?]
    unfold keysAt? at hold ⊢
    rw [at?_flagAll_target, if_pos ht, hb, Option.bind_some, flagTarget_of_takesIn hbody, hold]
    simp [Members.get?_set, object?, Members.keys_set, withKey]
  otherKeys path h := flagAll_otherKeys h
  frame path h := flagAll_frame h

/-! ### The order of the targets -/

theorem flagTargets_comm (t t' : String) (v : Json) :
    flagTargets t (flagTargets t' v) = flagTargets t' (flagTargets t v) := by
  cases v with
  | object ms =>
    by_cases ht : t = t'
    · rw [ht]
    · simp only [flagTargets]
      rw [Members.modify_comm _ _ ht]
  | _ => rfl

theorem flagDocument_comm (t t' : String) (d : Json) :
    flagDocument t (flagDocument t' d) = flagDocument t' (flagDocument t d) := by
  cases d with
  | object ms =>
    simp only [flagDocument]
    rw [Members.modify_modify, Members.modify_modify]
    simp only [flagTargets_comm t t']
  | _ => rfl

theorem flagAll_perm {ts ts' : List String} (h : ts.Perm ts') (d : Json) :
    flagAll ts d = flagAll ts' d := by
  induction h generalizing d with
  | nil => rfl
  | cons t _ ih => exact ih (flagDocument t d)
  | swap t t' ts => rw [flagAll_cons, flagAll_cons, flagAll_cons, flagAll_cons, flagDocument_comm]
  | trans _ _ ih ih' => exact (ih d).trans (ih' d)

/-! ### Depth -/

theorem fits_flagTarget {n : Nat} {v : Json} (h : Fits (n + 2) v) : Fits (n + 2) (flagTarget v) := by
  rcases takesIn_or_same v with ⟨body, hbody⟩ | hsame
  · rw [flagTarget_of_takesIn hbody]
    rw [hbody.1] at h
    cases h with
    | object hkeys hmembers =>
      have hoptions : (optionsOf body).keys.Nodup ∧ ∀ m ∈ optionsOf body, Fits n m.2 := by
        unfold optionsOf
        split
        · rename_i os hos
          have hfits := hmembers _ (Members.mem_of_get? hos)
          cases hfits with
          | object hkeys hos => exact ⟨hkeys, hos⟩
        · exact ⟨List.nodup_nil, by simp⟩
      refine .object (Members.nodup_keys_set hkeys) fun m hm => ?_
      rcases Members.mem_set hm with rfl | hm
      · refine .object (Members.nodup_keys_set hoptions.1) fun m hm => ?_
        rcases Members.mem_set hm with rfl | hm
        · exact .bool true
        · exact hoptions.2 m hm
      · exact hmembers m hm
  · rw [hsame]
    exact h

/-- Changing a member keeps the depth of an object, if it keeps that of the member. -/
theorem fits_modify {n : Nat} {k : String} {f : Json → Json} {ms : Members}
    (h : Fits (n + 1) (.object ms)) (hf : ∀ v, Fits n v → Fits n (f v)) :
    Fits (n + 1) (.object (ms.modify k f)) := by
  cases h with
  | object hkeys hmembers =>
    refine .object (by rw [Members.keys_modify]; exact hkeys) fun m hm => ?_
    rcases Members.mem_modify hm with hm | ⟨-, v, hv, heq⟩
    · exact hmembers m hm
    · rw [heq]
      exact hf v (hmembers _ hv)

theorem fits_flagAll {n : Nat} {d : Json} (ts : List String) (h : Fits (n + 4) d) :
    Fits (n + 4) (flagAll ts d) := by
  have htargets : ∀ t v, Fits (n + 3) v → Fits (n + 3) (flagTargets t v) := by
    intro t v hv
    cases v with
    | object ms => exact fits_modify hv fun b hb => fits_flagTarget hb
    | _ => exact hv
  induction ts generalizing d with
  | nil => exact h
  | cons t ts ih =>
    refine ih ?_
    cases d with
    | object ms => exact fits_modify h (htargets t)
    | _ => exact h

end Workyard.Migration
