import Workyard.Proofs.Migration.ProjectFile
import Workyard.Proofs.Project.Numbers

/-!
# Reloading flagged projects

A project file that is written with flags reads as the same project with these flags. That holds for
targets that are objects in an object, and only for these: a project or a target may be an array of
its fields as well, which is read but gets no flag.
-/

namespace Workyard

set_option autoImplicit false

open Json

namespace Migration

/-! ### Flagged targets -/

/-- The document and, in it, the body of the target are objects. -/
def targetIsObject (d : Json) (t : String) : Bool :=
  ((d.at? ["targets", t]).bind object?).isSome

def takesFlagIn (d : Json) (ts : List String) (t : String) : Bool :=
  ts.contains t && targetIsObject d t

def setFlag (t : Target) : Target :=
  { t with options := t.options.set standardFlag (.bool true) }

/-- What a target of a document is after it was written with flags and read. -/
def reloaded (d : Json) (ts : List String) (t : Target) : Target :=
  (if takesFlagIn d ts t.name then setFlag t else t).mapNumbers Number.reread

theorem name_reloaded (d : Json) (ts : List String) (t : Target) :
    (reloaded d ts t).name = t.name := by
  unfold reloaded
  split <;> rfl

/-! ### Bodies -/

theorem options_of_ofJson {body : Members} {w : Project.WrittenTarget}
    (h : Project.WrittenTarget.ofJson (.object body) = .ok w) :
    TakesIn (.object body) body ∧ w.options = optionsOf body := by
  obtain ⟨-, -, hoptions, -, -⟩ := Project.WrittenTarget.ofFields_eq_ok.mp h
  cases ho : Members.get? "options" body with
  | none =>
    rw [ho] at hoptions
    have hnone : optionsOf body = [] := by simp [optionsOf, ho]
    exact ⟨⟨rfl, fun o h => absurd (ho.symm.trans h) (by simp)⟩,
      hnone ▸ (Except.ok.inj hoptions).symm⟩
  | some o =>
    rw [ho] at hoptions
    cases o with
    | object os =>
      have hsome : optionsOf body = os := by simp [optionsOf, ho]
      exact ⟨⟨rfl, fun o h => ⟨os, Option.some.inj (h.symm.trans ho)⟩⟩,
        hsome ▸ (Except.ok.inj hoptions).symm⟩
    | _ =>
      simp [Project.WrittenTarget.fieldOr, Project.WrittenTarget.members] at hoptions

/-- A body with the flag makes the target with the flag. -/
theorem ofJson_flagTarget {body : Members} {w : Project.WrittenTarget}
    (h : Project.WrittenTarget.ofJson (.object body) = .ok w) :
    Project.WrittenTarget.ofJson (flagTarget (.object body)) =
      .ok { w with options := w.options.set standardFlag (.bool true) } := by
  obtain ⟨htakes, hoptions⟩ := options_of_ofJson h
  obtain ⟨hexecutor, hgroup, -, hconfigurations, hmetadata⟩ :=
    Project.WrittenTarget.ofFields_eq_ok.mp h
  have hother : ∀ key v, "options" ≠ key →
      Members.get? key (body.set "options" v) = Members.get? key body := by
    intro key v hne
    rw [Members.get?_set, if_neg hne]
  rw [flagTarget_of_takesIn htakes, hoptions]
  refine Project.WrittenTarget.ofFields_eq_ok.mpr ⟨?_, ?_, ?_, ?_, ?_⟩
  · rw [hother _ _ (by decide)]
    exact hexecutor
  · rw [hother _ _ (by decide)]
    exact hgroup
  · rw [Members.get?_set, if_pos rfl]
    rfl
  · rw [hother _ _ (by decide)]
    exact hconfigurations
  · rw [hother _ _ (by decide)]
    exact hmetadata

/-! ### Files -/

theorem ofJson?_flagDocument {ms : Members} (hkeys : (Members.keys ms).Nodup) (t : String) :
    Project.Written.ofJson? (flagDocument t (.object ms)) =
      (Project.Written.ofJson? (.object ms)).map fun w =>
        { w with targets := w.targets.modify t flagTarget } := by
  have hobject : ∀ v, object? (flagTargets t v) = (object? v).map (Members.modify t flagTarget) := by
    intro v
    cases v <;> rfl
  rw [flagDocument, Members.modify_eq_map _ hkeys]
  refine takeByName_map (f := fun k v => if k = "targets" then flagTargets t v else v)
    (g := fun w : Project.Written => { w with targets := w.targets.modify t flagTarget }) ?_
    ⟨none, none, [], []⟩ ms
  intro s hs w v
  rcases Project.Written.mem_slots.mp hs with rfl | rfl | rfl | rfl
  · rw [if_neg (by decide)]
    simp [Project.Written.nameSlot, Function.comp_def]
  · rw [if_neg (by decide)]
    simp [Project.Written.rootSlot, Function.comp_def]
  · rw [if_pos (by decide)]
    simp [Project.Written.targetsSlot, hobject, Function.comp_def]
  · rw [if_neg (by decide)]
    simp [Project.Written.metadataSlot, Function.comp_def]

/-- Where a document is an object, the targets that it is read with stand in it. -/
theorem targets_at {ms : Members} {w : Project.Written} {n : Nat} (hfits : Fits n (.object ms))
    (h : Project.Written.ofJson? (.object ms) = some w) :
    (Members.keys w.targets).Nodup ∧
      ∀ m ∈ w.targets, (Json.object ms).at? ["targets", m.1] = some m.2 := by
  cases hfits with
  | object hkeys hmembers =>
    have htargets := Project.Written.targets_of_ofJson? hkeys h
    cases hget : Members.get? "targets" ms with
    | none =>
      rw [hget] at htargets
      rw [htargets]
      exact ⟨List.nodup_nil, by simp⟩
    | some v =>
      rw [hget] at htargets
      cases v with
      | object bodies =>
        have heq : w.targets = bodies := htargets
        have hbodies := hmembers _ (Members.mem_of_get? hget)
        cases hbodies with
        | object hnames =>
          rw [heq]
          exact ⟨hnames, fun m hm => by simp [hget, Members.get?_of_mem hnames hm]⟩
      | _ =>
        rw [htargets]
        exact ⟨List.nodup_nil, by simp [object?]⟩

theorem foldl_modify_eq_map (ts : List String) {bodies : Members}
    (hkeys : (Members.keys bodies).Nodup) :
    ts.foldl (fun bodies t => Members.modify t flagTarget bodies) bodies =
      bodies.map fun m => (m.1, if m.1 ∈ ts then flagTarget m.2 else m.2) := by
  induction ts generalizing bodies with
  | nil => simp
  | cons t ts ih =>
    rw [List.foldl_cons, ih (by rw [Members.keys_modify]; exact hkeys),
      Members.modify_eq_map _ hkeys, List.map_map]
    refine List.map_congr_left fun m _ => ?_
    obtain ⟨name, body⟩ := m
    by_cases hname : name = t <;> by_cases hmem : name ∈ ts <;>
      simp [hname, hmem, flagTarget_flagTarget]

/-- The bodies that a project file has after the flags of some targets were set. -/
def flagBodies (d : Json) (ts : List String) (bodies : Members) : Members :=
  bodies.map fun m => (m.1, if takesFlagIn d ts m.1 then flagTarget m.2 else m.2)

theorem flagBodies_of_not_object {d : Json} (h : d.object? = none) (ts : List String)
    (bodies : Members) : flagAll ts d = d ∧ flagBodies d ts bodies = bodies := by
  have hat : ∀ t, d.at? ["targets", t] = none := by
    intro t
    cases d with
    | object ms => exact absurd h (by simp [object?])
    | _ => rfl
  constructor
  · refine flagAll_of_not_takes fun t _ htakes => ?_
    obtain ⟨body, hbody, _⟩ := htakes
    exact absurd ((hat t).symm.trans hbody) (by simp)
  · simp [flagBodies, takesFlagIn, targetIsObject, hat]

theorem ofJson?_flagAll_object {ms : Members} (hkeys : (Members.keys ms).Nodup) (ts : List String) :
    Project.Written.ofJson? (flagAll ts (.object ms)) =
      (Project.Written.ofJson? (.object ms)).map fun w => { w with
        targets := ts.foldl (fun bodies t => Members.modify t flagTarget bodies) w.targets } := by
  induction ts generalizing ms with
  | nil => simp [flagAll]
  | cons t ts ih =>
    rw [flagAll_cons, flagDocument, ih (by rw [Members.keys_modify]; exact hkeys), ← flagDocument,
      ofJson?_flagDocument hkeys, Option.map_map]
    rfl

/-- The targets that take the flag are objects, in an object. -/
theorem takesFlagIn_of_mem {d : Json} {w : Project.Written} {n : Nat} {m : String × Json}
    (hfits : Fits n d) (h : Project.Written.ofJson? d = some w) (ts : List String)
    (hm : m ∈ w.targets) :
    takesFlagIn d ts m.1 = (ts.contains m.1 && d.object?.isSome && m.2.object?.isSome) := by
  cases d with
  | object ms =>
    rw [takesFlagIn, targetIsObject, (targets_at hfits h).2 m hm, Option.bind_some]
    simp [object?]
  | _ => simp [takesFlagIn, targetIsObject, at?, object?]

theorem ofJson?_flagAll {d : Json} {w : Project.Written} {n : Nat} (hfits : Fits n d)
    (h : Project.Written.ofJson? d = some w) (ts : List String) :
    Project.Written.ofJson? (flagAll ts d) =
      some { w with targets := flagBodies d ts w.targets } := by
  cases hobject : d.object? with
  | none =>
    obtain ⟨hsame, hbodies⟩ := flagBodies_of_not_object hobject ts w.targets
    rw [hsame, hbodies, h]
  | some ms =>
    obtain rfl : d = .object ms := by
      cases d with
      | object ms' => rw [Option.some.inj hobject]
      | _ => exact absurd hobject (by simp [object?])
    have hkeys : (Members.keys ms).Nodup := by
      cases hfits with
      | object hkeys => exact hkeys
    rw [ofJson?_flagAll_object hkeys, h, Option.map_some,
      foldl_modify_eq_map ts (targets_at hfits h).1]
    congr 2
    refine List.map_congr_left fun m hm => ?_
    -- A body that is no object stays as it is, whether its name is listed or not.
    rw [takesFlagIn_of_mem hfits h ts hm]
    cases hbody : m.2 with
    | object body => simp [object?]
    | _ => simp [object?, flagTarget]

/-! ### Projects -/

/-- The flags of a document are set in the targets that its bodies make. -/
theorem targetsOf_flagBodies {d : Json} {w : Project.Written} {n : Nat} {targets : List Target}
    (hfits : Fits n d) (h : Project.Written.ofJson? d = some w) (ts : List String)
    (htargets : Project.targetsOf w.labels w.targets = .ok targets) :
    Project.targetsOf (w.labels.mapNumbers Number.reread)
        ((flagBodies d ts w.targets).mapNumbers Number.reread) =
      .ok (targets.map (reloaded d ts)) := by
  have hbodies : (flagBodies d ts w.targets).mapNumbers Number.reread = w.targets.map fun m =>
      (m.1, (if takesFlagIn d ts m.1 then flagTarget m.2 else m.2).mapNumbers Number.reread) := by
    simp [flagBodies, Members.mapNumbers, Function.comp_def]
  rw [hbodies]
  refine Project.targetsOf_map (c := fun name body =>
    (if takesFlagIn d ts name then flagTarget body else body).mapNumbers Number.reread) ?_ htargets
  intro m hm w' hw'
  by_cases hflag : takesFlagIn d ts m.1 = true
  · obtain ⟨body, hbody⟩ : ∃ body, m.2 = .object body := by
      rw [takesFlagIn_of_mem hfits h ts hm] at hflag
      cases hbody : m.2 with
      | object body => exact ⟨body, rfl⟩
      | _ => simp [hbody, object?] at hflag
    rw [hbody] at hw' ⊢
    have hbody' := ofJson_flagTarget hw'
    refine ⟨({ w' with options := w'.options.set standardFlag (.bool true) } :
      Project.WrittenTarget).mapNumbers Number.reread, ?_, ?_⟩
    · rw [if_pos hflag, Project.WrittenTarget.ofJson_mapNumbers, hbody']
      rfl
    · rw [Project.targetOf_mapNumbers, reloaded]
      exact (congrArg _ (if_pos hflag)).symm
  · refine ⟨w'.mapNumbers Number.reread, ?_, ?_⟩
    · rw [if_neg hflag, Project.WrittenTarget.ofJson_mapNumbers, hw']
      rfl
    · rw [Project.targetOf_mapNumbers, reloaded]
      exact (congrArg _ (if_neg hflag)).symm

/-- The file that is written for a project reads as the project with the flags. -/
theorem Planner.parse_finish_flagAll (pl : Planner) {p : Project} {text name root : String}
    {path : FilePath} {d : Json} (hparse : Json.parse text = .ok d)
    (hp : (Project.parse text path name root).result = .ok p) (ts : List String) :
    ∃ p', (Project.parse (pl.finish (flagAll ts d).pretty none) path name root).result = .ok p' ∧
      p'.name = p.name ∧ p'.root = p.root ∧ p'.targets = p.targets.map (reloaded d ts) := by
  obtain ⟨w, hw, htargets, hname, hroot, _⟩ := Project.parse_eq_ok.mp hp
  have hfits := fits_of_parse hparse
  have hwritten := Project.Written.ofJson?_of_parse hparse hw
  obtain ⟨rest, hspells, hrest⟩ := @spells_finish True pl _ (fits_flagAll ts hfits)
  have hafter : Project.Written.ofJson? (flagAll ts d).reread =
      some (Project.Written.mapNumbers Number.reread
        { w with targets := flagBodies d ts w.targets }) := by
    rw [reread, Project.Written.ofJson?_mapNumbers, ofJson?_flagAll hfits hwritten]
    rfl
  have hnames : ((p.targets.map (reloaded d ts)).map (·.name)).Nodup := by
    have hsame : (p.targets.map (reloaded d ts)).map (·.name) = p.targets.map (·.name) := by
      simp [Function.comp_def, name_reloaded]
    rw [hsame]
    exact p.nodup
  refine ⟨⟨p.name, p.root, some path, p.targets.map (reloaded d ts), hnames⟩, ?_, rfl, rfl, rfl⟩
  refine Project.parse_eq_ok.mpr ⟨_, Project.Written.parse_of_spells hspells hrest hafter, ?_,
    hname, hroot, rfl⟩
  exact targetsOf_flagBodies hfits hwritten ts htargets

end Migration

end Workyard
