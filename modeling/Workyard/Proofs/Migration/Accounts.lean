import Mathlib.Data.List.Forall2
import Mathlib.Data.List.Nodup
import Workyard.Proofs.Migration.Keeping
import Workyard.Proofs.Path.Components

/-!
# What a plan accounts for

Every candidate is migrated or passed over, once and in order. What moves and what is written
goes with the targets that are migrated, one by one.
-/

namespace Workyard.Migration

set_option autoImplicit false

open FilePath

/-- An item comes before another one in a list. -/
def Precedes {α : Type} (xs : List α) (a b : α) : Prop :=
  ∃ before after, xs = before ++ b :: after ∧ a ∈ before

/-- The targets of a project among those that are migrated. -/
def targetsIn (project : String) (ms : List MigratedTarget) : List String :=
  (ms.filter (·.project = project)).map (·.target)

/-- What a plan says of the candidates of a workspace. Paths are told apart by components. -/
structure Plan.Accounts (plan : Plan) (ps : List Project) (cs : List (Project × Target)) : Prop where
  distinct : (cs.map candidateKey).Nodup
  complete : (plan.migrated.map (·.key) ++ plan.skipped.map (·.key)).Perm (cs.map candidateKey)
  migrated : (plan.migrated.map (·.key)).Sublist (cs.map candidateKey)
  skipped : (plan.skipped.map (·.key)).Sublist (cs.map candidateKey)
  nonempty : plan.migrated ≠ []
  renames : plan.renames = plan.migrated.map fun m => ⟨m.webpackConfig, m.legacyConfig⟩
  sources : plan.renames.Pairwise fun r r' => r.source.same r'.source = false
  targets : plan.renames.Pairwise fun r r' => r.target.same r'.target = false
  writes : ∃ projectFiles configs, plan.writes = projectFiles ++ configs ∧
    projectFiles.map (fun w => some w.path) =
      (ps.filter fun p => targetsIn p.name plan.migrated ≠ []).map (·.source) ∧
    (∀ w ∈ projectFiles, w.path.fileName? = some Workspace.projectFile) ∧
    configs.map (·.path) = plan.migrated.map (·.webpackConfig)
  shared : ∀ s ∈ plan.skipped, ∀ path, s.reason = .sharedConfig path →
    ∃ m ∈ plan.migrated, m.webpackConfig.same path = true ∧
      Precedes (cs.map candidateKey) m.key s.key

theorem targetsIn_append (project : String) (ms ms' : List MigratedTarget) :
    targetsIn project (ms ++ ms') = targetsIn project ms ++ targetsIn project ms' := by
  simp [targetsIn]

theorem targetsIn_of_forall {project : String} {ms : List MigratedTarget}
    (h : ∀ m ∈ ms, m.project = project) : targetsIn project ms = ms.map (·.target) := by
  unfold targetsIn
  rw [List.filter_eq_self.mpr fun m hm => by simpa using h m hm]

theorem targetsIn_of_forall_ne {project : String} {ms : List MigratedTarget}
    (h : ∀ m ∈ ms, m.project ≠ project) : targetsIn project ms = [] := by
  unfold targetsIn
  rw [List.filter_eq_nil_iff.mpr fun m hm => by simpa using h m hm, List.map_nil]

theorem mem_targetsIn {target project : String} {ms : List MigratedTarget} :
    target ∈ targetsIn project ms ↔ ∃ m ∈ ms, m.project = project ∧ m.target = target := by
  simp [targetsIn, and_assoc]

/-! ### The two lists -/

theorem key_of_migrated? {v : Verdict} {m : MigratedTarget} (h : v.migrated? = some m) :
    m.key = v.key := by
  obtain ⟨project, target, outcome⟩ := v
  cases outcome with
  | migrate config legacy content multiple =>
    rw [Verdict.migrated?_migrate, Option.some_inj] at h
    rw [← h]
    rfl
  | skip reason => simp at h

theorem migrated_sublist (vs : List Verdict) :
    ((vs.filterMap Verdict.migrated?).map (·.key)).Sublist (vs.map (·.key)) := by
  induction vs with
  | nil => simp
  | cons v vs ih =>
    obtain ⟨project, target, outcome⟩ := v
    cases outcome with
    | migrate config legacy content multiple =>
      rw [List.filterMap_cons_some Verdict.migrated?_migrate]
      exact ih.cons_cons _
    | skip reason =>
      rw [List.filterMap_cons_none Verdict.migrated?_skip]
      exact ih.cons _

theorem skipped_sublist (vs : List Verdict) :
    ((vs.filterMap Verdict.skipped?).map (·.key)).Sublist (vs.map (·.key)) := by
  induction vs with
  | nil => simp
  | cons v vs ih =>
    obtain ⟨project, target, outcome⟩ := v
    cases outcome with
    | migrate config legacy content multiple =>
      rw [List.filterMap_cons_none Verdict.skipped?_migrate]
      exact ih.cons _
    | skip reason =>
      rw [List.filterMap_cons_some Verdict.skipped?_skip]
      exact ih.cons_cons _

theorem migrated_skipped_perm (vs : List Verdict) :
    ((vs.filterMap Verdict.migrated?).map (·.key) ++
      (vs.filterMap Verdict.skipped?).map (·.key)).Perm (vs.map (·.key)) := by
  induction vs with
  | nil => simp
  | cons v vs ih =>
    obtain ⟨project, target, outcome⟩ := v
    cases outcome with
    | migrate config legacy content multiple =>
      rw [List.filterMap_cons_some Verdict.migrated?_migrate,
        List.filterMap_cons_none Verdict.skipped?_migrate]
      exact ih.cons _
    | skip reason =>
      rw [List.filterMap_cons_none Verdict.migrated?_skip,
        List.filterMap_cons_some Verdict.skipped?_skip]
      exact List.perm_middle.trans (ih.cons _)

theorem nodup_candidates {settings : MigrateSettings} {request : Request} {ps : List Project}
    (h : (ps.map (·.name)).Nodup) :
    ((candidates settings request ps).map candidateKey).Nodup := by
  have hselected : ((ps.filter fun p => ∀ name ∈ request.project, p.name = name).map (·.name)).Nodup :=
    h.sublist (List.filter_sublist.map _)
  unfold candidates
  rw [List.map_flatMap, List.nodup_flatMap]
  constructor
  · intro p _
    have hown := (p.nodup.sublist (List.filter_sublist.map _) :
      ((p.targets.filter fun t => t.executor = some settings.webpackExecutor).map (·.name)).Nodup)
    have hkeys : (candidatesOf settings p).map candidateKey =
        ((p.targets.filter fun t => t.executor = some settings.webpackExecutor).map (·.name)).map
          fun t => (p.name, t) := by
      simp [candidatesOf, candidateKey, List.map_map, Function.comp_def]
    rw [hkeys]
    exact hown.map fun t t' heq => (Prod.mk.inj heq).2
  · rw [List.Nodup, List.pairwise_map] at hselected
    refine hselected.imp fun {p q} hne => List.disjoint_left.mpr ?_
    intro key hkey hkey'
    simp only [candidatesOf, List.map_map, List.mem_map, Function.comp_apply, candidateKey] at hkey hkey'
    obtain ⟨t, _, rfl⟩ := hkey
    obtain ⟨t', _, heq⟩ := hkey'
    exact hne (Prod.mk.inj heq).1.symm

/-! ### Moves -/

/-- Configs that move to one path have one path. -/
theorem same_of_same_legacy {p q : FilePath} (hp : p.EndsInName) (hq : q.EndsInName)
    (h : (p.withFileName (Webpack.legacyFileName (p.fileName?.getD ""))).same
      (q.withFileName (Webpack.legacyFileName (q.fileName?.getD ""))) = true) : p.same q = true := by
  have hname := isName_of_endsInName hp
  have hname' := isName_of_endsInName hq
  rw [fileName?_of_endsInName hp, fileName?_of_endsInName hq, Option.getD_some, Option.getD_some,
    same_iff, components_withFileName hp (Webpack.isName_legacyFileName hname),
    components_withFileName hq (Webpack.isName_legacyFileName hname')] at h
  obtain ⟨hbefore, hlast⟩ := List.append_singleton_inj.mp h
  have hlast := Webpack.legacyFileName_inj hname hname' (Component.name.inj hlast)
  rw [same_iff, components_of_endsInName hp, components_of_endsInName hq]
  rw [components_of_endsInName hp, components_of_endsInName hq, List.dropLast_concat,
    List.dropLast_concat] at hbefore
  rw [hbefore, hlast]

namespace Planner

variable {pl : Planner} {p : Project} {before vs own : List Verdict}
variable {cs : List (Project × Target)} {ps : List Project} {ws : List FileWrite}

theorem claims_append (vs vs' : List Verdict) : claims (vs ++ vs') = claims vs ++ claims vs' := by
  simp [claims]

theorem claims_eq (vs : List Verdict) :
    claims vs = (vs.filterMap Verdict.migrated?).map (·.webpackConfig) := by
  rw [claims, renames_of_verdicts, List.map_map]
  rfl

theorem claimed_iff {path : FilePath} (xs : List Verdict) :
    (claims xs).any (·.same path) = true ↔
      ∃ m ∈ xs.filterMap Verdict.migrated?, m.webpackConfig.same path = true := by
  rw [claims_eq, List.any_map, List.any_eq_true]
  rfl

theorem claims_migrate {project target content : String} {config legacy : FilePath} {multiple : Bool} :
    claims [⟨project, target, .migrate config legacy content multiple⟩] = [config] := rfl

theorem claims_skip {project target : String} {reason : SkipReason} :
    claims [⟨project, target, .skip reason⟩] = [] := rfl

/-- A config is claimed only if none of the claims before has its path. -/
theorem Judged.pairwise_claims (h : pl.Judged before cs vs)
    (hbefore : (claims before).Pairwise fun p q => p.same q = false) :
    (claims (before ++ vs)).Pairwise fun p q => p.same q = false := by
  induction h with
  | nil before => simpa using hbefore
  | @cons before vs p t outcome cs first rest ih =>
    rw [List.append_cons]
    apply ih
    rw [claims_append]
    cases judgement_of_judge first with
    | migrated _ hclaimed _ _ _ =>
      rw [claims_migrate]
      refine List.pairwise_append.mpr ⟨hbefore, by simp, ?_⟩
      intro q hq path hpath
      rw [List.mem_singleton.mp hpath]
      simpa using List.any_eq_false.mp hclaimed q hq
    | unnamed => rwa [claims_skip, List.append_nil]
    | shared => rwa [claims_skip, List.append_nil]
    | missing => rwa [claims_skip, List.append_nil]
    | unmarked => rwa [claims_skip, List.append_nil]

/-- A candidate shares the config of one that was judged before. -/
theorem Judged.exists_shared {s : SkippedTarget} {path : FilePath} (h : pl.Judged [] cs vs)
    (hs : s ∈ vs.filterMap Verdict.skipped?) (hreason : s.reason = .sharedConfig path) :
    ∃ m ∈ vs.filterMap Verdict.migrated?, m.webpackConfig.same path = true ∧
      Precedes (cs.map candidateKey) m.key s.key := by
  obtain ⟨v, hv, hskipped⟩ := List.mem_filterMap.mp hs
  obtain ⟨xs, ys, rfl⟩ := List.append_of_mem hv
  obtain ⟨cs₁, p, t, cs₂, rfl, hjudged, hkey, hjudge⟩ := h.split
  obtain ⟨project, target, outcome⟩ := v
  cases outcome with
  | migrate config legacy content multiple => simp at hskipped
  | skip reason =>
    rw [Verdict.skipped?_skip, Option.some_inj] at hskipped
    subst hskipped
    dsimp only at hreason hjudge
    subst hreason
    cases judgement_of_judge hjudge with
    | shared hname hclaimed =>
      obtain ⟨q, hq, hsame⟩ := List.any_eq_true.mp hclaimed
      rw [List.nil_append, claims_eq] at hq
      obtain ⟨m, hm, rfl⟩ := List.mem_map.mp hq
      refine ⟨m, ?_, hsame, cs₁.map candidateKey, cs₂.map candidateKey, ?_, ?_⟩
      · rw [List.filterMap_append]
        exact List.mem_append_left _ hm
      · rw [List.map_append, List.map_cons, ← hkey]
        rfl
      · rw [← hjudged.map_key]
        exact (migrated_sublist xs).subset (List.mem_map_of_mem hm)

/-! ### Project files -/

theorem Judged.project_of_mem {settings : MigrateSettings} (h : pl.Judged before (candidatesOf settings p) vs) :
    ∀ m ∈ vs.filterMap Verdict.migrated?, m.project = p.name := by
  intro m hm
  have hkey := (migrated_sublist vs).subset (List.mem_map_of_mem hm)
  rw [h.map_key] at hkey
  obtain ⟨c, hc, hkey⟩ := List.mem_map.mp hkey
  obtain ⟨t, _, rfl⟩ := List.mem_map.mp hc
  exact (Prod.mk.inj hkey).1.symm

theorem Rounds.project_of_mem (h : pl.Rounds before ps vs ws) :
    ∀ m ∈ vs.filterMap Verdict.migrated?, m.project ∈ ps.map (·.name) := by
  intro m hm
  have hkey := (migrated_sublist vs).subset (List.mem_map_of_mem hm)
  rw [h.judged.map_key] at hkey
  obtain ⟨c, hc, hkey⟩ := List.mem_map.mp hkey
  obtain ⟨p, hp, hc⟩ := List.mem_flatMap.mp hc
  obtain ⟨t, _, rfl⟩ := List.mem_map.mp hc
  rw [← (Prod.mk.inj hkey).1]
  exact List.mem_map_of_mem hp

/-- The file of each project that has a target to migrate is written for just these targets. -/
theorem Rounds.projectWrites {ms : List MigratedTarget} (h : pl.Rounds before ps vs ws)
    (hnames : (ps.map (·.name)).Nodup)
    (hms : ∀ p ∈ ps, targetsIn p.name ms = targetsIn p.name (vs.filterMap Verdict.migrated?)) :
    List.Forall₂ (fun p w => pl.projectWrite p (targetsIn p.name ms) = .ok w)
      (ps.filter fun p => targetsIn p.name ms ≠ []) ws := by
  induction h with
  | nil => exact .nil
  | @idle before own vs p ps ws judged none rest ih =>
    rw [List.map_cons, List.nodup_cons] at hnames
    simp only [List.filterMap_append, none, List.nil_append] at hms
    have hfirst : targetsIn p.name ms = [] := by
      rw [hms p List.mem_cons_self]
      exact targetsIn_of_forall_ne fun m hm heq => hnames.1 (heq ▸ rest.project_of_mem m hm)
    rw [List.filter_cons_of_neg (by simp [hfirst])]
    exact ih hnames.2 fun q hq => hms q (List.mem_cons_of_mem _ hq)
  | @writing before own vs p ps w ws judged some write rest ih =>
    rw [List.map_cons, List.nodup_cons] at hnames
    simp only [List.filterMap_append, targetsIn_append] at hms
    have hlater : targetsIn p.name (vs.filterMap Verdict.migrated?) = [] :=
      targetsIn_of_forall_ne fun m hm heq => hnames.1 (heq ▸ rest.project_of_mem m hm)
    have hfirst : targetsIn p.name ms = flagged own := by
      rw [hms p List.mem_cons_self, targetsIn_of_forall judged.project_of_mem, hlater,
        List.append_nil]
      rfl
    have hsome : flagged own ≠ [] := by simpa [flagged] using some
    rw [List.filter_cons_of_pos (by simp [hfirst, hsome])]
    refine .cons (hfirst ▸ write) (ih hnames.2 fun q hq => ?_)
    rw [hms q (List.mem_cons_of_mem _ hq), targetsIn_of_forall_ne, List.nil_append]
    intro m hm heq
    rw [judged.project_of_mem m hm] at heq
    exact hnames.1 (heq ▸ List.mem_map_of_mem hq)

end Planner

theorem map_path_of_projectWrites {pl : Planner} {targets : Project → List String} {ps : List Project}
    {ws : List FileWrite} (h : List.Forall₂ (fun p w => pl.projectWrite p (targets p) = .ok w) ps ws) :
    ws.map (fun w => some w.path) = ps.map (·.source) := by
  induction h with
  | nil => rfl
  | cons hwrite _ ih => rw [List.map_cons, List.map_cons, ih, Planner.path_of_projectWrite hwrite]

theorem isSelected_eq {d : Disk} {root : FilePath} {settings : MigrateSettings} {request : Request}
    {renderer : Webpack.Renderer} (p : Project) :
    (⟨d, root, settings, request, renderer⟩ : Planner).isSelected p =
      decide (∀ name ∈ request.project, p.name = name) := by
  unfold Planner.isSelected
  cases request.project with
  | none => simp
  | some name => simp

/-- A project that has a target to migrate is one that the migration looks at. -/
theorem filter_selected {request : Request} {ps : List Project} {ms : List MigratedTarget}
    (hms : ∀ m ∈ ms, ∀ name ∈ request.project, m.project = name) :
    (ps.filter fun p => ∀ name ∈ request.project, p.name = name).filter
        (fun p => targetsIn p.name ms ≠ []) = ps.filter fun p => targetsIn p.name ms ≠ [] := by
  rw [List.filter_filter]
  refine List.filter_congr fun p _ => ?_
  by_cases hsome : targetsIn p.name ms = []
  · simp [hsome]
  · obtain ⟨target, htarget⟩ := List.exists_mem_of_ne_nil _ hsome
    obtain ⟨m, hm, hproject, _⟩ := mem_targetsIn.mp htarget
    have hselected : ∀ name ∈ request.project, p.name = name := by
      intro name hname
      rw [← hproject]
      exact hms m hm name hname
    rw [decide_eq_true hselected, Bool.and_true]

section Loaded

variable {d d₀ : Disk} {root : FilePath} {ignore : List String} {w : Workspace}
variable {settings : MigrateSettings} {request : Request} {plan : Plan}

/-- The rounds of planning that make the plan of a workspace that was loaded. -/
theorem rounds_of_plan (hw : (Workspace.load d₀ root ignore).result = .ok w)
    (h : (Migration.plan d w settings request).result = .ok plan) :
    ∃ renderer vs ws, plan = (⟨d, w.root, settings, request, renderer⟩ : Planner).assemble ⟨vs, ws⟩ ∧
      plan.migrated ≠ [] ∧
      (⟨d, w.root, settings, request, renderer⟩ : Planner).Judged []
        (candidates settings request w.projects) vs ∧
      List.Forall₂ (fun p write => (⟨d, w.root, settings, request, renderer⟩ : Planner).projectWrite p
          (targetsIn p.name plan.migrated) = .ok write)
        (w.projects.filter fun p => targetsIn p.name plan.migrated ≠ []) ws := by
  obtain ⟨renderer, hrun⟩ := plan_eq_ok h
  obtain ⟨vs, ws, hrounds, rfl, hsome⟩ := Planner.rounds_of_run hrun
  have hselected : w.projects.filter
      (⟨d, w.root, settings, request, renderer⟩ : Planner).isSelected =
        w.projects.filter fun p => ∀ name ∈ request.project, p.name = name :=
    List.filter_congr fun p _ => isSelected_eq p
  rw [hselected] at hrounds
  refine ⟨renderer, vs, ws, rfl, hsome, hrounds.judged, ?_⟩
  have hnames : ((w.projects.filter fun p => ∀ name ∈ request.project, p.name = name).map
      (·.name)).Nodup := (Workspace.nodup_names_of_load hw).sublist (List.filter_sublist.map _)
  have hwrites := hrounds.projectWrites hnames fun p _ => rfl
  rw [filter_selected] at hwrites
  · exact hwrites
  · intro m hm
    obtain ⟨p, hp, hname⟩ := List.mem_map.mp (hrounds.project_of_mem m hm)
    rw [← hname]
    simpa using (List.mem_filter.mp hp).2

/-- The plan of a workspace that was loaded accounts for all candidates. -/
theorem plan_accounts (hw : (Workspace.load d₀ root ignore).result = .ok w)
    (h : (Migration.plan d w settings request).result = .ok plan) :
    plan.Accounts w.projects (candidates settings request w.projects) := by
  have hplanned : Planned d plan := by
    obtain ⟨renderer, hrun⟩ := plan_eq_ok h
    exact Planner.planned_of_run hrun (Workspace.source_of_load hw)
  obtain ⟨renderer, vs, ws, hplan, hsome, hjudged, hwrites⟩ := rounds_of_plan hw h
  have hmigrated : plan.migrated = vs.filterMap Verdict.migrated? := by rw [hplan]; rfl
  have hskipped : plan.skipped = vs.filterMap Verdict.skipped? := by rw [hplan]; rfl
  have hkeys := hjudged.map_key
  have hsources : plan.renames.Pairwise fun r r' => r.source.same r'.source = false := by
    have hclaims := hjudged.pairwise_claims .nil
    rw [List.nil_append, Planner.claims_eq, ← hmigrated, List.pairwise_map] at hclaims
    rw [hplanned.renames, List.pairwise_map]
    exact hclaims
  refine ⟨nodup_candidates (Workspace.nodup_names_of_load hw), ?_, ?_, ?_, hsome,
    hplanned.renames, hsources, ?_, ?_, ?_⟩
  · rw [← hkeys, hmigrated, hskipped]
    exact migrated_skipped_perm vs
  · rw [← hkeys, hmigrated]
    exact migrated_sublist vs
  · rw [← hkeys, hskipped]
    exact skipped_sublist vs
  · refine hsources.imp_of_mem fun {r r'} hr hr' hne => ?_
    obtain ⟨m, hm, rfl⟩ := hplanned.mem_renames.mp hr
    obtain ⟨m', hm', rfl⟩ := hplanned.mem_renames.mp hr'
    rw [Bool.eq_false_iff] at hne ⊢
    rw [hplanned.legacy m hm, hplanned.legacy m' hm']
    exact fun hsame => hne (same_of_same_legacy (hplanned.endsInName hm) (hplanned.endsInName hm') hsame)
  · have hpaths := map_path_of_projectWrites hwrites
    refine ⟨ws, vs.filterMap Verdict.write?, by rw [hplan]; rfl, hpaths, ?_, ?_⟩
    · intro write hwrite
      have hpath : some write.path ∈ ws.map fun w => some w.path := List.mem_map_of_mem hwrite
      rw [hpaths] at hpath
      obtain ⟨p, hp, hsource⟩ := List.mem_map.mp hpath
      obtain ⟨q, hq⟩ := Workspace.source_of_load hw p (List.mem_filter.mp hp).1 _ hsource
      rw [hq]
      exact fileName?_child isName_projectFile q
    · rw [writePaths_of_verdicts, hmigrated]
  · intro s hs path hreason
    rw [hskipped] at hs
    rw [hmigrated]
    exact hjudged.exists_shared hs hreason

end Loaded

/-- Three targets with one config, two of which spell its path alike. -/
def respelled : Disk :=
  shortWorkspace (targetText "a" "w.js" ++ "," ++ targetText "b" "t/../w.js" ++ "," ++
    targetText "c" "./w.js") [("w.js", "withNx()")]

theorem planAt_respelled :
    (planAt respelled ⟨"ws"⟩ ⟨none, true⟩).result.toOption.map (fun plan =>
      (plan.migrated, plan.skipped)) = some
        ([⟨"ws", "a", ⟨"ws/w.js"⟩, ⟨"ws/w.old.js"⟩, false⟩,
          ⟨"ws", "b", ⟨"ws/t/../w.js"⟩, ⟨"ws/t/../w.old.js"⟩, false⟩],
        [⟨"ws", "c", .sharedConfig ⟨"ws/./w.js"⟩⟩]) := by
  decide +kernel

theorem plan_accounts_respelled : ∃ (settings : Settings) (w : Workspace) (plan : Plan),
    (Workspace.load respelled ⟨"ws"⟩ settings.ignore).result = .ok w ∧
      (Migration.plan respelled w settings.migrate ⟨none, true⟩).result = .ok plan ∧
        plan.Accounts w.projects (candidates settings.migrate ⟨none, true⟩ w.projects) := by
  obtain ⟨plan, hplan, _⟩ := Option.map_eq_some_iff.mp planAt_respelled
  obtain ⟨settings, w, _, hw, hplan⟩ := planAt_eq_ok (result_of_toOption hplan)
  exact ⟨settings, w, plan, hw, hplan, plan_accounts hw hplan⟩

end Workyard.Migration
