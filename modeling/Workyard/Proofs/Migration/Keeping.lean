import Workyard.Migration.Run
import Workyard.Proofs.Migration.Configs

/-!
# Keeping configs

What a migration that succeeds leaves at the configs and at the names that they move to.
-/

namespace Workyard.Migration

set_option autoImplicit false

open Disk FilePath

variable {root : FilePath} {request : Request} {plan : Plan} {s t : Session} {report : Report}

theorem run_warnOfRepeats {ε : Type} (ts : List MigratedTarget) (s : Session) :
    ∃ t, (warnOfRepeats ts : Work ε Unit).run s = (.ok (), t) ∧ Alike t s := by
  induction ts generalizing s with
  | nil => exact ⟨s, rfl, .refl s⟩
  | cons m ms ih =>
    unfold warnOfRepeats
    by_cases h : m.multipleMarkers
    · obtain ⟨t, hrun, halike⟩ := ih { s with lines := s.lines ++ [⟨.warn, repeatedMessage m⟩] }
      refine ⟨t, ?_, halike.1, halike.2⟩
      simp only [h, if_true]
      rw [Work.run_bind_of_ok (Work.run_say ..)]
      exact hrun
    · obtain ⟨t, hrun, halike⟩ := ih s
      refine ⟨t, ?_, halike⟩
      simp only [h]
      exact hrun

/-- A migration whose plan is known comes to applying that. -/
theorem run_of_planAt (hplan : (planAt s.disk root request).result = .ok plan) (dryRun : Bool) :
    ∃ s', Alike s' s ∧ (run root request dryRun).run s = (do
      let effects ← apply plan dryRun
      pure ⟨plan.migrated, plan.skipped, effects⟩ : Work MigrationError Report).run s' := by
  obtain ⟨s', hwarn, halike⟩ := @run_warnOfRepeats MigrationError plan.migrated
    { s with lines := s.lines ++ (planAt s.disk root request).lines }
  have hlogged : (Work.ofLogged (planAt s.disk root request)).run s =
      (.ok plan, { s with lines := s.lines ++ (planAt s.disk root request).lines }) := by
    rw [Work.ofLogged, hplan]
  refine ⟨s', halike, ?_⟩
  unfold run
  rw [Work.run_bind_of_ok (Work.run_disk s), Work.run_bind_of_ok hlogged, Work.run_bind_of_ok hwarn]

/-- A migration that succeeds has applied its plan. -/
theorem run_eq_ok (h : (run root request false).run s = (.ok report, t)) :
    ∃ plan, (planAt s.disk root request).result = .ok plan ∧ report.migrated = plan.migrated ∧
      ∃ s' effects, s'.disk = s.disk ∧ (apply plan false).run s' = (.ok effects, t) := by
  cases hplan : (planAt s.disk root request).result with
  | error e =>
    have hlogged : (Work.ofLogged (planAt s.disk root request)).run s =
        (.error e, { s with lines := s.lines ++ (planAt s.disk root request).lines }) := by
      rw [Work.ofLogged, hplan]
    unfold run at h
    rw [Work.run_bind_of_ok (Work.run_disk s), Work.run_bind_of_error hlogged] at h
    simp at h
  | ok plan =>
    obtain ⟨s', halike, hrun⟩ := run_of_planAt hplan false
    rw [hrun] at h
    obtain ⟨effects, s₁, happly, h⟩ := Work.run_bind_eq_ok h
    obtain ⟨hreport, rfl⟩ := Prod.mk.inj h
    exact ⟨plan, rfl, by rw [← Except.ok.inj hreport], s', effects, halike.1, happly⟩

/-- What is known of a plan that is applied whatever was said before holds of the migration. -/
theorem exists_run {d : Disk} {P : List Effect → Disk → Prop}
    (hplan : (planAt d root request).result = .ok plan)
    (h : ∀ lines, ∃ effects t, (apply plan false).run ⟨d, [], lines⟩ = (.ok effects, t) ∧
      P effects t.disk) :
    ∃ effects t, (run root request false).run (.start d) =
      (.ok ⟨plan.migrated, plan.skipped, effects⟩, t) ∧ P effects t.disk := by
  obtain ⟨⟨d', ahead, lines⟩, halike, hrun⟩ := @run_of_planAt _ _ _ (.start d) hplan false
  obtain rfl : d' = d := halike.1
  obtain rfl : ahead = [] := halike.2
  obtain ⟨effects, t, happly, hP⟩ := h lines
  refine ⟨effects, t, ?_, hP⟩
  rw [hrun, Work.run_bind_of_ok happly]
  rfl

/-- A migration keeps the configs that it moves just when they are apart. -/
theorem run_keeps (h : (run root request false).run s = (.ok report, t)) :
    ∃ plan, (planAt s.disk root request).result = .ok plan ∧ plan.migrated = report.migrated ∧
      (plan.ConfigsApart s.disk → ∀ m ∈ report.migrated, plan.Keeps s.disk t.disk m) ∧
      (¬ plan.ConfigsApart s.disk → plan.Loses s.disk t.disk) := by
  obtain ⟨plan, hplan, hmigrated, s', effects, hdisk, happly⟩ := run_eq_ok h
  have hplanned := planned_of_planAt hplan
  have hfiles : ∀ r ∈ plan.renames, ∃ c, s'.disk.view (s'.disk.place r.source) = some (.file c) := by
    intro r hr
    obtain ⟨m, hm, rfl⟩ := hplanned.mem_renames.mp hr
    rw [hdisk]
    exact hplanned.view_config hm
  obtain ⟨_, d₁, hcommitted⟩ := run_apply_eq_ok hfiles happly
  rw [hdisk] at hcommitted
  refine ⟨plan, hplan, hmigrated.symm, fun ha m hm => ?_, fun ha => hplanned.loses ha hcommitted⟩
  exact hplanned.keeps ha hcommitted (hmigrated ▸ hm)

def targetText (name config : String) : String :=
  "\"" ++ name ++ "\":\x7b\"executor\":\"w\",\"options\":\x7b\"webpackConfig\":\"" ++ config ++
    "\"\x7d\x7d"

/-- A workspace in which new configs are written in one word. -/
def shortWorkspace (targets : String) (configs : List (String × String)) : Disk :=
  let template := Entry.directory [("webpack.config.js.tera", .file (.text "new"))]
  ⟨.directory [("ws", .directory ([
    ("conduit.yaml", .file (.text "migrate: \x7bwebpack_executor: w, template_dir: t\x7d")),
    ("project.json", .file (.text ("\x7b\"targets\":\x7b" ++ targets ++ "\x7d\x7d"))),
    ("t", .directory [("webpack", template)])] ++
    configs.map fun c => (c.1, .file (.text c.2))))], []⟩

def oneConfig : Disk :=
  shortWorkspace (targetText "a" "w.js") [("w.js", "withNx()")]

def oneConfigPlan : Plan where
  root := ⟨"ws"⟩
  migrated := [⟨"ws", "a", ⟨"ws/w.js"⟩, ⟨"ws/w.old.js"⟩, false⟩]
  skipped := []
  renames := [⟨⟨"ws/w.js"⟩, ⟨"ws/w.old.js"⟩⟩]
  writes := [⟨⟨"ws/project.json"⟩, "\x7b
  \"targets\": \x7b
    \"a\": \x7b
      \"executor\": \"w\",
      \"options\": \x7b
        \"webpackConfig\": \"w.js\",
        \"standardWebpackConfigFunction\": true
      \x7d
    \x7d
  \x7d
\x7d"⟩, ⟨⟨"ws/w.js"⟩, "new"⟩]

theorem planAt_oneConfig :
    (planAt oneConfig ⟨"ws"⟩ ⟨none, true⟩).result.toOption = some oneConfigPlan := by
  decide +kernel

theorem configsApart_oneConfig : oneConfigPlan.ConfigsApart oneConfig where
  legacy := by decide
  temporary := by decide

theorem run_keeps_oneConfig : ∃ report t,
    (run ⟨"ws"⟩ ⟨none, true⟩ false).run (.start oneConfig) = (.ok report, t) ∧
      ∀ m ∈ report.migrated, oneConfigPlan.Keeps oneConfig t.disk m := by
  have hplan := result_of_toOption planAt_oneConfig
  obtain ⟨effects, t, hrun, -⟩ := @exists_run _ _ _ _ (fun _ _ => True) hplan
    fun lines => ⟨_, _, rfl, trivial⟩
  refine ⟨_, t, hrun, ?_⟩
  obtain ⟨plan, hplan', _, hkeeps, _⟩ := run_keeps hrun
  obtain rfl := Except.ok.inj (hplan.symm.trans hplan')
  exact hkeeps configsApart_oneConfig

/-- Two configs, one of which has the name that the other one moves to. -/
def crossed : Disk :=
  shortWorkspace (targetText "a" "w.js" ++ "," ++ targetText "b" "w.old.js")
    [("w.js", "withNx()"), ("w.old.js", "withNx(\x7b\x7d)")]

def crossedPlan : Plan where
  root := ⟨"ws"⟩
  migrated := [⟨"ws", "a", ⟨"ws/w.js"⟩, ⟨"ws/w.old.js"⟩, false⟩,
    ⟨"ws", "b", ⟨"ws/w.old.js"⟩, ⟨"ws/w.old.old.js"⟩, false⟩]
  skipped := []
  renames := [⟨⟨"ws/w.js"⟩, ⟨"ws/w.old.js"⟩⟩, ⟨⟨"ws/w.old.js"⟩, ⟨"ws/w.old.old.js"⟩⟩]
  writes := [⟨⟨"ws/project.json"⟩, "\x7b
  \"targets\": \x7b
    \"a\": \x7b
      \"executor\": \"w\",
      \"options\": \x7b
        \"webpackConfig\": \"w.js\",
        \"standardWebpackConfigFunction\": true
      \x7d
    \x7d,
    \"b\": \x7b
      \"executor\": \"w\",
      \"options\": \x7b
        \"webpackConfig\": \"w.old.js\",
        \"standardWebpackConfigFunction\": true
      \x7d
    \x7d
  \x7d
\x7d"⟩, ⟨⟨"ws/w.js"⟩, "new"⟩, ⟨⟨"ws/w.old.js"⟩, "new"⟩]

theorem planAt_crossed :
    (planAt crossed ⟨"ws"⟩ ⟨none, true⟩).result.toOption = some crossedPlan := by
  decide +kernel

/-- The config of the second target is lost: where it moved to there is the first one's. -/
theorem crossed_config_is_lost : ∃ report t,
    (run ⟨"ws"⟩ ⟨none, true⟩ false).run (.start crossed) = (.ok report, t) ∧
      ∃ m ∈ report.migrated, m.target = "b" ∧
        crossed.at? (crossed.place m.webpackConfig) = some (.file (.text "withNx(\x7b\x7d)")) ∧
        t.disk.at? (crossed.place m.legacyConfig) = some (.file (.text "withNx()")) := by
  obtain ⟨effects, t, hrun, hlost⟩ := @exists_run _ _ _ _
    (fun _ d => d.at? (crossed.place ⟨"ws/w.old.old.js"⟩) = some (.file (.text "withNx()")))
    (result_of_toOption planAt_crossed) fun lines => ⟨_, _, rfl, rfl⟩
  exact ⟨_, t, hrun, _, List.mem_cons_of_mem _ List.mem_cons_self, rfl, by decide, hlost⟩

end Workyard.Migration
