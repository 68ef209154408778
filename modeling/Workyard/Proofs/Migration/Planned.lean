import Workyard.Proofs.Migration.Verdicts
import Workyard.Proofs.Workspace.Sources

/-!
# Plans

What planning makes sure of: every target that it migrates has a config that is there, moves it
to the name that the new one refers to, and writes a new one; the other files that it writes are
project files.
-/

namespace Workyard.Migration

set_option autoImplicit false

open FilePath

/-- The move of a target's config, and the new one. -/
structure Planned (d : Disk) (plan : Plan) : Prop where
  renames : plan.renames = plan.migrated.map fun m => ⟨m.webpackConfig, m.legacyConfig⟩
  writes : ∃ projectFiles configs, plan.writes = projectFiles ++ configs ∧
    configs.map (·.path) = plan.migrated.map (·.webpackConfig) ∧
    ∀ w ∈ projectFiles, ∃ q : FilePath, w.path = q.child Workspace.projectFile
  isFile : ∀ m ∈ plan.migrated, d.isFile m.webpackConfig = true
  legacy : ∀ m ∈ plan.migrated, m.legacyConfig =
    m.webpackConfig.withFileName (Webpack.legacyFileName (m.webpackConfig.fileName?.getD ""))

/-- What a verdict makes sure of. -/
def Verdict.Sound (d : Disk) (v : Verdict) : Prop :=
  ∀ m ∈ v.migrated?, d.isFile m.webpackConfig = true ∧ m.legacyConfig =
    m.webpackConfig.withFileName (Webpack.legacyFileName (m.webpackConfig.fileName?.getD ""))

theorem renames_of_verdicts (vs : List Verdict) : vs.filterMap Verdict.rename? =
    (vs.filterMap Verdict.migrated?).map fun m => ⟨m.webpackConfig, m.legacyConfig⟩ := by
  rw [List.map_filterMap]
  congr
  funext v
  unfold Verdict.rename? Verdict.migrated?
  split <;> rfl

theorem writePaths_of_verdicts (vs : List Verdict) : (vs.filterMap Verdict.write?).map (·.path) =
    (vs.filterMap Verdict.migrated?).map (·.webpackConfig) := by
  rw [List.map_filterMap, List.map_filterMap]
  congr
  funext v
  unfold Verdict.write? Verdict.migrated?
  split <;> rfl

namespace Planner

variable {pl : Planner} {p : Project} {t : Target} {claimed : List FilePath} {outcome : Outcome}
variable {before vs : List Verdict} {ps : List Project} {ws : List FileWrite}

theorem Judgement.sound (h : pl.Judgement claimed p t outcome) :
    (⟨p.name, t.name, outcome⟩ : Verdict).Sound pl.disk := by
  intro m hm
  cases h with
  | migrated _ _ hfile _ _ =>
    rw [Verdict.migrated?_migrate, Option.mem_some_iff] at hm
    subst hm
    refine ⟨hfile, ?_⟩
    dsimp only
  | unnamed => simp at hm
  | shared => simp at hm
  | missing => simp at hm
  | unmarked => simp at hm

theorem Judged.sound {cs : List (Project × Target)} (h : pl.Judged before cs vs) :
    ∀ v ∈ vs, v.Sound pl.disk := by
  induction h with
  | nil => simp
  | cons first rest ih =>
    intro v hv
    rcases List.mem_cons.mp hv with rfl | hv
    · exact (judgement_of_judge first).sound
    · exact ih v hv

theorem projectWrite_eq_ok {targets : List String} {w : FileWrite} :
    pl.projectWrite p targets = .ok w ↔ ∃ text doc, p.source = some w.path ∧
      pl.disk.readText w.path = .ok text ∧ Json.parse text = .ok doc ∧
        w.content = pl.finish (flagAll targets doc).pretty none := by
  unfold projectWrite
  constructor
  · intro h
    split at h
    · simp at h
    · rename_i path hsource
      split at h
      · simp at h
      · rename_i text hread
        split at h
        · simp at h
        · rename_i doc hparse
          obtain rfl := Except.ok.inj h
          exact ⟨text, doc, hsource, hread, hparse, rfl⟩
  · rintro ⟨text, doc, hsource, hread, hparse, hcontent⟩
    simp [hsource, hread, hparse, ← hcontent]

theorem path_of_projectWrite {targets : List String} {w : FileWrite}
    (h : pl.projectWrite p targets = .ok w) : p.source = some w.path := by
  obtain ⟨_, _, hsource, _⟩ := projectWrite_eq_ok.mp h
  exact hsource

/-- The files of a round are those of its projects. -/
theorem Rounds.exists_projectWrite (h : pl.Rounds before ps vs ws) :
    ∀ w ∈ ws, ∃ p ∈ ps, ∃ targets, pl.projectWrite p targets = .ok w := by
  induction h with
  | nil => simp
  | idle judged none rest ih =>
    intro w hw
    obtain ⟨p, hp, hwrite⟩ := ih w hw
    exact ⟨p, List.mem_cons_of_mem _ hp, hwrite⟩
  | writing judged some write rest ih =>
    intro w hw
    rcases List.mem_cons.mp hw with rfl | hw
    · exact ⟨_, List.mem_cons_self, _, write⟩
    · obtain ⟨p, hp, hwrite⟩ := ih w hw
      exact ⟨p, List.mem_cons_of_mem _ hp, hwrite⟩

theorem planned_of_run {projects : List Project} {plan : Plan}
    (h : (pl.run projects).result = .ok plan)
    (hps : ∀ p ∈ projects, ∀ path ∈ p.source, ∃ q : FilePath, path = q.child Workspace.projectFile) :
    Planned pl.disk plan := by
  obtain ⟨vs, ws, hrounds, rfl, _⟩ := rounds_of_run h
  have hsound := hrounds.judged.sound
  refine ⟨renames_of_verdicts vs, ⟨ws, _, rfl, writePaths_of_verdicts vs, ?_⟩, ?_, ?_⟩
  · intro w hw
    obtain ⟨p, hp, targets, hwrite⟩ := hrounds.exists_projectWrite w hw
    exact hps p (List.mem_filter.mp hp).1 _ (path_of_projectWrite hwrite)
  · intro m hm
    obtain ⟨v, hv, hm⟩ := List.mem_filterMap.mp hm
    exact (hsound v hv m hm).1
  · intro m hm
    obtain ⟨v, hv, hm⟩ := List.mem_filterMap.mp hm
    exact (hsound v hv m hm).2

end Planner

theorem planAt_eq_ok {d : Disk} {root : FilePath} {request : Request} {plan : Plan}
    (h : (planAt d root request).result = .ok plan) :
    ∃ settings w, Settings.load d root = .ok settings ∧
      (Workspace.load d root settings.ignore).result = .ok w ∧
        (Migration.plan d w settings.migrate request).result = .ok plan := by
  unfold planAt at h
  obtain ⟨settings, hsettings, h⟩ := Logged.result_bind_eq_ok.mp h
  obtain ⟨w, hw, h⟩ := Logged.result_bind_eq_ok.mp h
  obtain ⟨_, _, h⟩ := Logged.result_bind_eq_ok.mp h
  have hsettings := (Logged.result_mapError_eq_ok (x := .ofExcept _)).mp hsettings
  exact ⟨settings, w, hsettings, Logged.result_mapError_eq_ok.mp hw, h⟩

/-- Planning is a run of a planner. -/
theorem plan_eq_ok {d : Disk} {w : Workspace} {settings : MigrateSettings} {request : Request}
    {plan : Plan} (h : (Migration.plan d w settings request).result = .ok plan) :
    ∃ renderer, ((⟨d, w.root, settings, request, renderer⟩ : Planner).run w.projects).result =
      .ok plan := by
  unfold Migration.plan at h
  obtain ⟨renderer, _, h⟩ := Logged.result_bind_eq_ok.mp h
  exact ⟨renderer, h⟩

theorem planned_of_planAt {d : Disk} {root : FilePath} {request : Request} {plan : Plan}
    (h : (planAt d root request).result = .ok plan) : Planned d plan := by
  obtain ⟨settings, w, _, hw, h⟩ := planAt_eq_ok h
  obtain ⟨renderer, h⟩ := plan_eq_ok h
  exact Planner.planned_of_run h (Workspace.source_of_load hw)

end Workyard.Migration
