import Workyard.Proofs.Migration.Accounts
import Workyard.Proofs.Migration.Reloading

/-!
# Whether flags take effect

Planning writes the file of each project that has a target to migrate. What it writes is read as the
same project, and the flag is set in the targets that are migrated, save those that stand in arrays:
their configs are replaced, and nothing says that the new ones are plain.
-/

namespace Workyard

set_option autoImplicit false

open Json

/-- The flag in the options of a target. -/
def Project.flag? (p : Project) (target : String) : Option Json :=
  (p.target? target).bind fun t => Members.get? Migration.standardFlag t.options

namespace Migration

variable {d d₀ : Disk} {root : FilePath} {ignore : List String} {w : Workspace}
variable {settings : MigrateSettings} {request : Request} {plan : Plan}

theorem flag?_reloaded {doc : Json} {ts : List String} {p p' : Project} {target : String}
    (htargets : p'.targets = p.targets.map (reloaded doc ts)) (hts : target ∈ ts)
    (htarget : target ∈ p.targetNames) :
    p'.flag? target = some (.bool true) ↔
      targetIsObject doc target = true ∨ p.flag? target = some (.bool true) := by
  have hfind : p'.target? target = (p.target? target).map (reloaded doc ts) := by
    unfold Project.target?
    rw [htargets, List.find?_map]
    simp [Function.comp_def, name_reloaded]
  obtain ⟨t, ht⟩ : ∃ t, p.target? target = some t := by
    obtain ⟨t, ht, hname⟩ := List.mem_map.mp htarget
    exact Option.isSome_iff_exists.mp (List.find?_isSome.mpr ⟨t, ht, by simpa using hname⟩)
  have hname := (Project.target?_eq_some ht).2
  have htrue : ∀ v : Json, v.reread = .bool true ↔ v = .bool true := by
    intro v
    cases v <;> simp [reread]
  unfold Project.flag?
  rw [hfind, ht, Option.map_some, Option.bind_some, Option.bind_some, reloaded, hname,
    takesFlagIn, List.contains_iff_mem.mpr hts, Bool.true_and]
  cases targetIsObject doc target with
  | true => simp [setFlag, Target.mapNumbers, Members.get?_mapNumbers, Members.get?_set]
  | false =>
    simp only [Bool.false_eq_true, if_false, false_or, Target.mapNumbers, Members.get?_mapNumbers]
    cases Members.get? standardFlag t.options with
    | none => simp
    | some v =>
      rw [Option.map_some, Option.some_inj, Option.some_inj]
      exact htrue v

/-- The target of a project that an entry of the plan is about. -/
theorem exists_target_of_migrated {pl : Planner} {vs : List Verdict} {ps : List Project}
    {m : MigratedTarget} (h : pl.Judged [] (candidates settings request ps) vs)
    (hm : m ∈ vs.filterMap Verdict.migrated?) :
    ∃ p ∈ ps, p.name = m.project ∧ m.target ∈ p.targetNames := by
  have hkey := (migrated_sublist vs).subset (List.mem_map_of_mem hm)
  rw [h.map_key] at hkey
  obtain ⟨c, hc, hkey⟩ := List.mem_map.mp hkey
  obtain ⟨p, hp, hc⟩ := List.mem_flatMap.mp hc
  obtain ⟨t, ht, rfl⟩ := List.mem_map.mp hc
  obtain ⟨hproject, htarget⟩ := Prod.mk.inj hkey
  refine ⟨p, (List.mem_filter.mp hp).1, hproject, ?_⟩
  rw [← htarget]
  exact List.mem_map_of_mem (List.mem_filter.mp ht).1

theorem exists_write_of_mem {pl : Planner} {targets : Project → List String} {ps : List Project}
    {ws : List FileWrite} {p : Project}
    (h : List.Forall₂ (fun p w => pl.projectWrite p (targets p) = .ok w) ps ws) (hp : p ∈ ps) :
    ∃ write ∈ ws, pl.projectWrite p (targets p) = .ok write := by
  induction h with
  | nil => exact absurd hp (by simp)
  | @cons q write ps ws hwrite _ ih =>
    rcases List.mem_cons.mp hp with rfl | hp
    · exact ⟨write, List.mem_cons_self, hwrite⟩
    · obtain ⟨write', hmem, hwrite'⟩ := ih hp
      exact ⟨write', List.mem_cons_of_mem _ hmem, hwrite'⟩

/-- The file that a plan writes for the project of a migrated target gives the same project, and the
flag in the target if that is an object, in an object, or had the flag before. -/
def Plan.TakesEffect (plan : Plan) (d : Disk) (ps : List Project) : Prop :=
  ∃ files configs, plan.writes = files ++ configs ∧ ∀ m ∈ plan.migrated,
    ∃ p ∈ ps, ∃ write ∈ files, ∃ text doc,
      p.name = m.project ∧ p.source = some write.path ∧
      d.readText write.path = .ok text ∧ Json.parse text = .ok doc ∧
      ∀ name root, ∃ p',
        (Project.parse write.content write.path name root).result = .ok p' ∧
        p'.targetNames = p.targetNames ∧
        p'.targets = p.targets.map (reloaded doc (targetsIn p.name plan.migrated)) ∧
        (p'.flag? m.target = some (.bool true) ↔
          targetIsObject doc m.target = true ∨ p.flag? m.target = some (.bool true))

/-- Flags take effect in a workspace whose project files are what they were when it was loaded. -/
theorem plan_takesEffect (hw : (Workspace.load d₀ root ignore).result = .ok w)
    (hsame : ∀ p ∈ w.projects, ∀ path ∈ p.source, d.readText path = d₀.readText path)
    (h : (Migration.plan d w settings request).result = .ok plan) :
    plan.TakesEffect d w.projects := by
  obtain ⟨renderer, vs, ws, hplan, _, hjudged, hwrites⟩ := rounds_of_plan hw h
  have hmigrated : plan.migrated = vs.filterMap Verdict.migrated? := by rw [hplan]; rfl
  refine ⟨ws, vs.filterMap Verdict.write?, by rw [hplan]; rfl, ?_⟩
  intro m hm
  obtain ⟨p, hp, hproject, htarget⟩ := exists_target_of_migrated hjudged (hmigrated ▸ hm)
  have hts : m.target ∈ targetsIn p.name plan.migrated := mem_targetsIn.mpr ⟨m, hm, hproject.symm, rfl⟩
  have hwritten : p ∈ w.projects.filter fun p => targetsIn p.name plan.migrated ≠ [] :=
    List.mem_filter.mpr ⟨hp, by simpa using List.ne_nil_of_mem hts⟩
  obtain ⟨write, hmem, hwrite⟩ := exists_write_of_mem hwrites hwritten
  obtain ⟨text, doc, hsource, hread, hparse, hcontent⟩ := Planner.projectWrite_eq_ok.mp hwrite
  refine ⟨p, hp, write, hmem, text, doc, hproject, hsource, hread, hparse, fun name root' => ?_⟩
  obtain ⟨q, text₀, name₀, root₀, hread₀, hload⟩ := Workspace.exists_parse_of_load hw p hp
  obtain ⟨_, _, _, _, _, hsource₀⟩ := Project.parse_eq_ok.mp hload
  obtain hpath := Option.some.inj (hsource₀.symm.trans hsource)
  rw [hpath] at hread₀ hload
  -- The file has not changed, so the flags were set in the text that gave the project.
  have htext : text₀ = text := by
    have hread := (hsame p hp write.path hsource).symm.trans hread
    exact Except.ok.inj (hread₀.symm.trans hread)
  subst htext
  obtain ⟨p₀, hp₀, htargets₀⟩ := Project.parse_with_defaults hload name root'
  obtain ⟨p', hp', -, -, htargets⟩ := Planner.parse_finish_flagAll
    (⟨d, w.root, settings, request, renderer⟩ : Planner) hparse hp₀ (targetsIn p.name plan.migrated)
  rw [htargets₀] at htargets
  refine ⟨p', by rw [hcontent]; exact hp', ?_, htargets, flag?_reloaded htargets hts htarget⟩
  unfold Project.targetNames
  rw [htargets, List.map_map]
  exact List.map_congr_left fun t _ => name_reloaded _ _ t

/-! ### A target that is an array -/

/-- Two targets to migrate, of which the second is an array of its fields. -/
def mixedTargets : Disk :=
  shortWorkspace (targetText "a" "w.js" ++ ",\"b\":[\"w\",null,\x7b\"webpackConfig\":\"v.js\"\x7d]")
    [("w.js", "withNx()"), ("v.js", "withNx()")]

theorem planAt_mixedTargets :
    ((planAt mixedTargets ⟨"ws"⟩ ⟨none, true⟩).result.toOption.bind fun plan =>
      plan.writes.head?.bind fun write =>
        (Project.parse write.content write.path "ws" ".").result.toOption.map fun p =>
          (write.path, plan.migrated.map (·.key), (p.flag? "a").map compact,
            (p.flag? "b").map compact)) =
      some (⟨"ws/project.json"⟩, [("ws", "a"), ("ws", "b")], some "true", none) := by
  decide +kernel

theorem exists_plan_mixedTargets : ∃ plan write p,
    (planAt mixedTargets ⟨"ws"⟩ ⟨none, true⟩).result = .ok plan ∧ plan.writes.head? = some write ∧
      (Project.parse write.content write.path "ws" ".").result = .ok p ∧
        write.path = ⟨"ws/project.json"⟩ ∧ plan.migrated.map (·.key) = [("ws", "a"), ("ws", "b")] ∧
          (p.flag? "a").map compact = some "true" ∧ (p.flag? "b").map compact = none := by
  obtain ⟨plan, hplan, h⟩ := Option.bind_eq_some_iff.mp planAt_mixedTargets
  obtain ⟨write, hwrite, h⟩ := Option.bind_eq_some_iff.mp h
  obtain ⟨p, hp, h⟩ := Option.map_eq_some_iff.mp h
  simp only [Prod.mk.injEq] at h
  obtain ⟨hpath, hmigrated, hfirst, hsecond⟩ := h
  exact ⟨plan, write, p, result_of_toOption hplan, hwrite, result_of_toOption hp, hpath, hmigrated,
    hfirst, hsecond⟩

theorem plan_takesEffect_mixedTargets : ∃ (settings : Settings) (w : Workspace) (plan : Plan),
    (Workspace.load mixedTargets ⟨"ws"⟩ settings.ignore).result = .ok w ∧
      (Migration.plan mixedTargets w settings.migrate ⟨none, true⟩).result = .ok plan ∧
        plan.TakesEffect mixedTargets w.projects := by
  obtain ⟨plan, _, _, hplan, _⟩ := exists_plan_mixedTargets
  obtain ⟨settings, w, _, hw, hplan⟩ := planAt_eq_ok hplan
  exact ⟨settings, w, plan, hw, hplan, plan_takesEffect hw (fun _ _ _ _ => rfl) hplan⟩

/-- A target that is an array is migrated, and the file that is written sets no flag in it. -/
theorem array_target_has_no_flag : ∃ plan write p,
    (planAt mixedTargets ⟨"ws"⟩ ⟨none, true⟩).result = .ok plan ∧
      (∃ m ∈ plan.migrated, m.key = ("ws", "b")) ∧
        write ∈ plan.writes ∧ write.path = ⟨"ws/project.json"⟩ ∧
          (Project.parse write.content write.path "ws" ".").result = .ok p ∧
            p.flag? "b" = none := by
  obtain ⟨plan, write, p, hplan, hwrite, hp, hpath, hmigrated, _, hflag⟩ := exists_plan_mixedTargets
  refine ⟨plan, write, p, hplan, ?_, List.mem_of_head? hwrite, hpath, hp, ?_⟩
  · have hmem : ("ws", "b") ∈ plan.migrated.map (·.key) := by
      rw [hmigrated]
      decide
    exact List.mem_map.mp hmem
  · exact Option.map_eq_none_iff.mp hflag

end Migration

end Workyard
