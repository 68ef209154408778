import Workyard.Proofs.Migration.Accounts

/-!
# Migrating one project

What is decided on the candidates of a project depends on the other projects only through the
configs that these claim. So a plan for one project is the part of the plan for all projects that
belongs to it, as long as none of its targets shares a config with a target of another one.
-/

namespace Workyard.Migration

set_option autoImplicit false

/-! ### What belongs to a project -/

section Belonging

variable {α β γ : Type} {owner : α → String} {name : String} {owners : List α} {items : List β}

/-- The items of a project, where each item goes with an owner in the same place of a list. -/
def belonging (owner : α → String) (name : String) (owners : List α) (items : List β) : List β :=
  ((owners.zip items).filter fun pair => owner pair.1 = name).map (·.2)

theorem belonging_cons (a : α) (b : β) : belonging owner name (a :: owners) (b :: items) =
    if owner a = name then b :: belonging owner name owners items
    else belonging owner name owners items := by
  by_cases h : owner a = name <;> simp [belonging, h]

theorem belonging_filterMap {f : γ → Option α} {g : γ → Option β} {owner' : γ → String}
    (hboth : ∀ c, (f c).isSome = (g c).isSome) (howner : ∀ c, ∀ a ∈ f c, owner a = owner' c)
    (cs : List γ) : belonging owner name (cs.filterMap f) (cs.filterMap g) =
      (cs.filter fun c => owner' c = name).filterMap g := by
  induction cs with
  | nil => rfl
  | cons c cs ih =>
    have hc := hboth c
    cases hf : f c with
    | none =>
      rw [hf, Option.isSome_none, eq_comm, Option.isSome_eq_false_iff, Option.isNone_iff_eq_none] at hc
      rw [List.filterMap_cons_none hf, List.filterMap_cons_none hc, ih, List.filter_cons]
      split
      · rw [List.filterMap_cons_none hc]
      · rfl
    | some a =>
      rw [hf, Option.isSome_some, eq_comm, Option.isSome_iff_exists] at hc
      obtain ⟨b, hg⟩ := hc
      rw [List.filterMap_cons_some hf, List.filterMap_cons_some hg, belonging_cons, howner c a hf, ih,
        List.filter_cons]
      by_cases hname : owner' c = name
      · simp [hname, hg]
      · simp [hname]

theorem forall₂_belonging {R : α → β → Prop} (h : List.Forall₂ R owners items) :
    List.Forall₂ R (owners.filter fun a => owner a = name) (belonging owner name owners items) := by
  induction h with
  | nil => exact .nil
  | @cons a b owners items hab _ ih =>
    rw [belonging_cons, List.filter_cons]
    by_cases ha : owner a = name
    · simp only [ha, decide_true, if_true]
      exact .cons hab ih
    · simpa [ha] using ih

end Belonging

/-- The part of a plan that belongs to a project. Moves and new configs go with the targets that are
migrated, and the files that are written first go with the projects of these. -/
structure Plan.PartOf (part plan : Plan) (ps : List Project) (name : String) : Prop where
  root : part.root = plan.root
  migrated : part.migrated = plan.migrated.filter (·.project = name)
  skipped : part.skipped = plan.skipped.filter (·.project = name)
  renames : plan.renames.map (·.source) = plan.migrated.map (·.webpackConfig) ∧
    part.renames = belonging (·.project) name plan.migrated plan.renames
  writes : ∃ owners files configs, owners = ps.filter (fun p => targetsIn p.name plan.migrated ≠ []) ∧
    plan.writes = files ++ configs ∧
    files.map (fun w => some w.path) = owners.map (·.source) ∧
    configs.map (·.path) = plan.migrated.map (·.webpackConfig) ∧
    part.writes = belonging (·.name) name owners files ++
      belonging (·.project) name plan.migrated configs

/-- No target of the project is passed over for a config that a target of another project has. -/
def Plan.SharesWithin (plan : Plan) (name : String) : Prop :=
  ∀ s ∈ plan.skipped, s.project = name → ∀ path, s.reason = .sharedConfig path →
    ∀ m ∈ plan.migrated, m.webpackConfig.same path = true → m.project = name

/-- The verdicts on the targets of a project. -/
def ofProject (name : String) (vs : List Verdict) : List Verdict :=
  vs.filter (·.project = name)

theorem targetsIn_filter (name : String) (ms : List MigratedTarget) :
    targetsIn name (ms.filter (·.project = name)) = targetsIn name ms := by
  simp [targetsIn, List.filter_filter]

theorem ofProject_append (name : String) (vs vs' : List Verdict) :
    ofProject name (vs ++ vs') = ofProject name vs ++ ofProject name vs' :=
  List.filter_append ..

theorem filterMap_ofProject {α : Type} {f : Verdict → Option α} {owner : α → String}
    (howner : ∀ v, ∀ a ∈ f v, owner a = v.project) (name : String) (vs : List Verdict) :
    (ofProject name vs).filterMap f = (vs.filterMap f).filter fun a => owner a = name := by
  unfold ofProject
  rw [List.filterMap_filter, List.filter_filterMap]
  refine List.filterMap_congr fun v _ => ?_
  cases hf : f v with
  | none => simp
  | some a => by_cases hname : v.project = name <;> simp [Option.filter, howner v a hf, hname]

theorem project_of_migrated? (v : Verdict) : ∀ m ∈ v.migrated?, m.project = v.project :=
  fun _ hm => congrArg Prod.fst (key_of_migrated? hm)

theorem project_of_skipped? (v : Verdict) : ∀ s ∈ v.skipped?, s.project = v.project := by
  intro s hs
  obtain ⟨project, target, outcome⟩ := v
  cases outcome with
  | migrate config legacy content multiple => simp at hs
  | skip reason =>
    rw [Verdict.skipped?_skip, Option.mem_some_iff] at hs
    rw [← hs]

theorem Verdict.isSome_rename? (v : Verdict) : v.migrated?.isSome = v.rename?.isSome := by
  unfold migrated? rename?
  cases v.outcome <;> rfl

theorem Verdict.isSome_write? (v : Verdict) : v.migrated?.isSome = v.write?.isSome := by
  unfold migrated? write?
  cases v.outcome <;> rfl

theorem migrated_ofProject (name : String) (vs : List Verdict) :
    (ofProject name vs).filterMap Verdict.migrated? =
      (vs.filterMap Verdict.migrated?).filter (·.project = name) :=
  filterMap_ofProject project_of_migrated? name vs

theorem skipped_ofProject (name : String) (vs : List Verdict) :
    (ofProject name vs).filterMap Verdict.skipped? =
      (vs.filterMap Verdict.skipped?).filter (·.project = name) :=
  filterMap_ofProject project_of_skipped? name vs

namespace Planner

variable {pl : Planner} {p : Project} {t : Target} {name : String} {outcome : Outcome}
variable {before vs own : List Verdict} {claimed claimed' : List FilePath}
variable {cs : List (Project × Target)} {ps : List Project} {ws : List FileWrite}

/-- The planner that looks at one project alone. -/
def only (pl : Planner) (name : String) : Planner :=
  { pl with request := { pl.request with project := some name } }

theorem judge_only (name : String) (claimed : List FilePath) (p : Project) (t : Target) :
    (pl.only name).judge claimed p t = pl.judge claimed p t := rfl

theorem projectWrite_only (name : String) (p : Project) (targets : List String) :
    (pl.only name).projectWrite p targets = pl.projectWrite p targets := rfl

theorem filter_isSelected_only (name : String) (ps : List Project) :
    ps.filter (pl.only name).isSelected = ps.filter (·.name = name) := rfl

/-! ### One candidate -/

theorem judge_of_claimed {config : String} (h : configName? t = some config)
    (hclaimed : claimed.any (·.same (pl.configPath config)) = true) :
    (pl.judge claimed p t).result = .ok (.skip (.sharedConfig (pl.configPath config))) := by
  unfold judge
  rw [h]
  simp only [configPath] at hclaimed
  simp only [hclaimed, if_true]
  rfl

theorem judge_congr (h : ∀ config, configName? t = some config →
      claimed.any (·.same (pl.configPath config)) = claimed'.any (·.same (pl.configPath config))) :
    pl.judge claimed p t = pl.judge claimed' p t := by
  unfold judge
  cases hconfig : configName? t with
  | none => rfl
  | some config =>
    have h := h config hconfig
    simp only [configPath] at h
    simp only [h]

/-- A verdict stays when the claims of other projects are forgotten, unless it is for one of these. -/
theorem judge_ofProject (h : (pl.judge (claims before) p t).result = .ok outcome)
    (hshares : ∀ path, outcome = .skip (.sharedConfig path) →
      ∀ m ∈ before.filterMap Verdict.migrated?, m.webpackConfig.same path = true → m.project = name) :
    (pl.judge (claims (ofProject name before)) p t).result = .ok outcome := by
  rw [← h]
  congr 1
  refine judge_congr fun config hconfig => ?_
  rw [Bool.eq_iff_iff, claimed_iff, claimed_iff, migrated_ofProject]
  constructor
  · rintro ⟨m, hm, hsame⟩
    exact ⟨m, (List.mem_filter.mp hm).1, hsame⟩
  · rintro ⟨m, hm, hsame⟩
    have hclaimed := (claimed_iff before).mpr ⟨m, hm, hsame⟩
    have houtcome := Except.ok.inj (h.symm.trans (judge_of_claimed hconfig hclaimed))
    exact ⟨m, List.mem_filter.mpr ⟨hm, by simpa using hshares _ houtcome m hm hsame⟩, hsame⟩

/-! ### A run -/

/-- No verdict on the project is for a config that a target of another project has. -/
def SharesWithin (name : String) (vs : List Verdict) : Prop :=
  ∀ v ∈ vs, v.project = name → ∀ path, v.outcome = .skip (.sharedConfig path) →
    ∀ m ∈ vs.filterMap Verdict.migrated?, m.webpackConfig.same path = true → m.project = name

theorem SharesWithin.of_append {vs' : List Verdict} (h : SharesWithin name (vs ++ vs')) :
    SharesWithin name vs := by
  intro v hv hproject path houtcome m hm
  refine h v (List.mem_append_left _ hv) hproject path houtcome m ?_
  rw [List.filterMap_append]
  exact List.mem_append_left _ hm

theorem eq_of_mem_candidatesOf {settings : MigrateSettings} {c : Project × Target}
    (h : c ∈ candidatesOf settings p) : c.1 = p := by
  obtain ⟨t, _, rfl⟩ := List.mem_map.mp h
  rfl

/-- The verdicts on a project stay when the claims of other projects are forgotten. -/
theorem Judged.only (h : pl.Judged before cs vs) (hcs : ∀ c ∈ cs, c.1.name = name)
    (hshares : SharesWithin name (before ++ vs)) :
    (pl.only name).Judged (ofProject name before) cs vs := by
  induction h with
  | nil before => exact .nil _
  | @cons before vs p t outcome cs first rest ih =>
    obtain ⟨hname, hcs⟩ := List.forall_mem_cons.mp hcs
    have hjudge : (pl.judge (claims (ofProject name before)) p t).result = .ok outcome := by
      refine judge_ofProject first fun path houtcome m hm => ?_
      refine hshares ⟨p.name, t.name, outcome⟩ (by simp) hname path houtcome m ?_
      rw [List.filterMap_append]
      exact List.mem_append_left _ hm
    have hown : ofProject name [⟨p.name, t.name, outcome⟩] = [⟨p.name, t.name, outcome⟩] :=
      List.filter_cons_of_pos (by simpa using hname)
    rw [List.append_cons] at hshares
    have hrest := ih hcs hshares
    rw [ofProject_append, hown] at hrest
    rw [← judge_only name] at hjudge
    exact .cons hjudge hrest

theorem ofProject_judged {settings : MigrateSettings}
    (h : pl.Judged before (candidatesOf settings p) own) (name : String) :
    ofProject name own = if p.name = name then own else [] := by
  have hproject : ∀ v ∈ own, v.project = p.name := by
    intro v hv
    have hkey : v.key ∈ own.map (·.key) := List.mem_map_of_mem hv
    rw [h.map_key] at hkey
    obtain ⟨c, hc, hkey⟩ := List.mem_map.mp hkey
    rw [← eq_of_mem_candidatesOf hc]
    exact (Prod.mk.inj hkey).1.symm
  unfold ofProject
  split
  · rename_i hname
    exact List.filter_eq_self.mpr fun v hv => by simpa [hproject v hv] using hname
  · rename_i hname
    exact List.filter_eq_nil_iff.mpr fun v hv => by simpa [hproject v hv] using hname

/-- The rounds of one project are those of a run for it alone. -/
theorem Rounds.only (h : pl.Rounds before ps vs ws) (hshares : SharesWithin name (before ++ vs)) :
    ∃ ws', (pl.only name).Rounds (ofProject name before) (ps.filter (·.name = name))
      (ofProject name vs) ws' := by
  have hown : ∀ {before own vs : List Verdict} {p : Project},
      pl.Judged before (candidatesOf pl.settings p) own → p.name = name →
      SharesWithin name (before ++ (own ++ vs)) →
      (pl.only name).Judged (ofProject name before) (candidatesOf pl.settings p) own := by
    intro before own vs p judged hname hshares
    rw [← List.append_assoc] at hshares
    exact judged.only (fun c hc => by rw [eq_of_mem_candidatesOf hc, hname]) hshares.of_append
  induction h with
  | nil before => exact ⟨[], .nil _⟩
  | @idle before own vs p ps ws judged none rest ih =>
    obtain ⟨ws', hrest⟩ := ih (by rwa [List.append_assoc])
    rw [ofProject_append, ofProject_judged judged] at hrest
    rw [ofProject_append, ofProject_judged judged]
    by_cases hname : p.name = name
    · rw [if_pos hname] at hrest ⊢
      rw [List.filter_cons_of_pos (by simpa using hname)]
      exact ⟨ws', .idle (hown judged hname hshares) none hrest⟩
    · rw [if_neg hname, List.append_nil] at hrest
      rw [if_neg hname, List.filter_cons_of_neg (by simpa using hname)]
      exact ⟨ws', hrest⟩
  | @writing before own vs p ps w ws judged some write rest ih =>
    obtain ⟨ws', hrest⟩ := ih (by rwa [List.append_assoc])
    rw [ofProject_append, ofProject_judged judged] at hrest
    rw [ofProject_append, ofProject_judged judged]
    by_cases hname : p.name = name
    · rw [if_pos hname] at hrest ⊢
      rw [List.filter_cons_of_pos (by simpa using hname)]
      rw [← projectWrite_only name] at write
      exact ⟨w :: ws', .writing (hown judged hname hshares) some write hrest⟩
    · rw [if_neg hname, List.append_nil] at hrest
      rw [if_neg hname, List.filter_cons_of_neg (by simpa using hname)]
      exact ⟨ws', hrest⟩

end Planner

section Loaded

variable {d d₀ : Disk} {root : FilePath} {ignore : List String} {w : Workspace}
variable {settings : MigrateSettings} {skipFormat : Bool} {full : Plan}

/-- Planning with one filter or another is a run with the same renderer. -/
theorem exists_renderer {request : Request}
    (h : (Migration.plan d w settings request).result = .ok full) :
    ∃ renderer, ∀ request, (Migration.plan d w settings request).result =
      ((⟨d, w.root, settings, request, renderer⟩ : Planner).run w.projects).result := by
  obtain ⟨renderer, hrenderer, _⟩ := Logged.result_bind_eq_ok.mp h
  refine ⟨renderer, fun request => ?_⟩
  unfold Migration.plan
  rw [Logged.result_bind, hrenderer]
  rfl

/-- The files that are written for one project are those that are written for it among all. -/
theorem Planner.projectWrites_only {pl : Planner} {name : String} {vs : List Verdict}
    {ps : List Project} {ws ws' : List FileWrite} (hnames : (ps.map (·.name)).Nodup)
    (h : pl.Rounds [] ps vs ws)
    (h' : (pl.only name).Rounds [] (ps.filter (·.name = name)) (ofProject name vs) ws') :
    ws' = belonging (·.name) name
      (ps.filter fun p => targetsIn p.name (vs.filterMap Verdict.migrated?) ≠ []) ws := by
  have hall := h.projectWrites hnames fun _ _ => rfl
  have htargets : ∀ p ∈ ps.filter (·.name = name),
      targetsIn p.name (vs.filterMap Verdict.migrated?) =
        targetsIn p.name ((ofProject name vs).filterMap Verdict.migrated?) := by
    intro p hp
    obtain rfl : p.name = name := by simpa using (List.mem_filter.mp hp).2
    rw [migrated_ofProject, targetsIn_filter]
  have hone := h'.projectWrites (hnames.sublist (List.filter_sublist.map _)) htargets
  have hpart := @forall₂_belonging _ _ (·.name) name _ _ _ hall
  rw [List.filter_comm] at hpart
  refine List.right_unique_forall₂' (fun p w w' hw hw' => ?_) hone hpart
  exact Except.ok.inj (hw.symm.trans hw')

/-- A plan for one project is the part of the plan for all that belongs to it. -/
theorem plan_project (hw : (Workspace.load d₀ root ignore).result = .ok w)
    (hfull : (Migration.plan d w settings ⟨none, skipFormat⟩).result = .ok full) (name : String)
    (hshares : full.SharesWithin name) :
    ((∃ m ∈ full.migrated, m.project = name) →
      ∃ part, (Migration.plan d w settings ⟨some name, skipFormat⟩).result = .ok part ∧
        part.PartOf full w.projects name) ∧
    ((¬ ∃ m ∈ full.migrated, m.project = name) →
      (Migration.plan d w settings ⟨some name, skipFormat⟩).result = .error .nothingToMigrate) := by
  obtain ⟨renderer, hrenderer⟩ := exists_renderer hfull
  rw [hrenderer] at hfull
  rw [hrenderer]
  generalize hpl : (⟨d, w.root, settings, ⟨none, skipFormat⟩, renderer⟩ : Planner) = pl at hfull
  have honly : (⟨d, w.root, settings, ⟨some name, skipFormat⟩, renderer⟩ : Planner) = pl.only name := by
    rw [← hpl]
    rfl
  rw [honly]
  obtain ⟨hcompatible, vs, ws, hrounds, rfl, _⟩ := Planner.run_eq_ok hfull
  have hall : w.projects.filter pl.isSelected = w.projects := by
    rw [← hpl]
    exact List.filter_eq_self.mpr fun _ _ => rfl
  rw [hall] at hrounds hcompatible
  have hnames := Workspace.nodup_names_of_load hw
  have hshares : Planner.SharesWithin name ([] ++ vs) := by
    rintro ⟨project, target, outcome⟩ hv hproject path houtcome m hm
    dsimp only at houtcome
    subst houtcome
    exact hshares ⟨project, target, .sharedConfig path⟩
      (List.mem_filterMap.mpr ⟨_, hv, Verdict.skipped?_skip⟩) hproject path rfl m hm
  obtain ⟨ws', hpart⟩ := hrounds.only hshares
  have hselected : (pl.only name).Rounds [] (w.projects.filter (pl.only name).isSelected)
      (ofProject name vs) ws' := by
    rw [Planner.filter_isSelected_only]
    exact hpart
  have hresult := Planner.result_run hselected fun p hp => hcompatible p (List.mem_filter.mp hp).1
  rw [migrated_ofProject] at hresult
  constructor
  · rintro ⟨m, hm, hname⟩
    have hsome : (vs.filterMap Verdict.migrated?).filter (·.project = name) ≠ [] :=
      List.ne_nil_of_mem (List.mem_filter.mpr ⟨hm, by simpa using hname⟩)
    refine ⟨_, hresult.trans (if_neg hsome), rfl, migrated_ofProject name vs,
      skipped_ofProject name vs, ⟨?_, ?_⟩, ?_⟩
    · show (vs.filterMap Verdict.rename?).map (·.source) = _
      rw [renames_of_verdicts, List.map_map]
      rfl
    · exact (belonging_filterMap Verdict.isSome_rename? project_of_migrated? vs).symm
    · refine ⟨_, ws, vs.filterMap Verdict.write?, rfl, rfl, ?_, writePaths_of_verdicts vs, ?_⟩
      · exact map_path_of_projectWrites (hrounds.projectWrites hnames fun _ _ => rfl)
      · refine congrArg₂ _ (Planner.projectWrites_only hnames hrounds hpart) ?_
        exact (belonging_filterMap Verdict.isSome_write? project_of_migrated? vs).symm
  · intro hnone
    refine hresult.trans (if_pos (List.filter_eq_nil_iff.mpr fun m hm hname => hnone ⟨m, hm, ?_⟩))
    simpa using hname

end Loaded

/-! ### Two projects, the second of which has two targets with one config -/

def twoProjects : Disk :=
  let template := Disk.Entry.directory [("webpack.config.js.tera", .file (.text "new"))]
  let project (targets : String) : Disk.Entry := .directory [
    ("project.json", .file (.text ("\x7b\"targets\":\x7b" ++ targets ++ "\x7d\x7d"))),
    ("w.js", .file (.text "withNx()"))]
  ⟨.directory [("ws", .directory [("t", .directory [("webpack", template)]),
    ("a", project (targetText "x" "a/w.js")),
    ("b", project (targetText "x" "b/w.js" ++ "," ++ targetText "y" "./b/w.js"))])], []⟩

def twoProjectFiles : List FilePath :=
  [⟨"ws/a/project.json"⟩, ⟨"ws/b/project.json"⟩]

def projectsLoaded : List Project :=
  (Workspace.loadAll twoProjects ⟨"ws"⟩ [] twoProjectFiles).result.toOption.getD []

def twoProjectsLoaded : Workspace :=
  ⟨⟨"ws"⟩, projectsLoaded⟩

def shortSettings : MigrateSettings where
  webpackExecutor := "w"
  incompatibleExecutors := []
  extraPathKeys := []
  templateDir := some ⟨"t"⟩

theorem discover_twoProjects : Workspace.discover twoProjects ⟨"ws"⟩ [] = .ok twoProjectFiles := by
  obtain ⟨es, hes, hfiles⟩ : ∃ es, twoProjects.entry ⟨"ws"⟩ = .ok (.directory es) ∧
      Workspace.projectFiles [] ⟨"ws"⟩ (.directory es) = twoProjectFiles :=
    ⟨_, rfl, by decide +kernel⟩
  unfold Workspace.discover
  rw [hes]
  dsimp only
  rw [hfiles, List.mergeSort_of_pairwise (by decide)]

theorem names_twoProjects :
    (Workspace.loadAll twoProjects ⟨"ws"⟩ [] twoProjectFiles).result.toOption.map
      (fun ps => ps.map (·.name)) = some ["a", "b"] := by
  decide +kernel

theorem load_twoProjects :
    (Workspace.load twoProjects ⟨"ws"⟩ []).result = .ok twoProjectsLoaded := by
  obtain ⟨ps, hps, hnames⟩ := Option.map_eq_some_iff.mp names_twoProjects
  have hloaded : projectsLoaded = ps := by
    simp only [projectsLoaded, hps, Option.getD_some]
  have hsorted : ps.Pairwise fun p q => decide (p.name ≤ q.name) = true := by
    refine List.pairwise_map.mp (?_ : (ps.map (·.name)).Pairwise fun a b => decide (a ≤ b) = true)
    rw [hnames]
    decide
  unfold Workspace.load
  refine Logged.result_bind_eq_ok.mpr ⟨twoProjectFiles, discover_twoProjects, ?_⟩
  refine Logged.result_bind_eq_ok.mpr ⟨ps, result_of_toOption hps, ?_⟩
  rw [List.mergeSort_of_pairwise hsorted, ← hloaded]
  rfl

theorem plan_twoProjects :
    (Migration.plan twoProjects twoProjectsLoaded shortSettings ⟨none, true⟩).result.toOption.map
      (fun plan => (plan.migrated, plan.skipped)) = some
        ([⟨"a", "x", ⟨"ws/a/w.js"⟩, ⟨"ws/a/w.old.js"⟩, false⟩,
          ⟨"b", "x", ⟨"ws/b/w.js"⟩, ⟨"ws/b/w.old.js"⟩, false⟩],
        [⟨"b", "y", .sharedConfig ⟨"ws/./b/w.js"⟩⟩]) := by
  decide +kernel

theorem plan_project_twoProjects : ∃ full part,
    (Workspace.load twoProjects ⟨"ws"⟩ []).result = .ok twoProjectsLoaded ∧
      (Migration.plan twoProjects twoProjectsLoaded shortSettings ⟨none, true⟩).result = .ok full ∧
      full.SharesWithin "b" ∧ (∃ m ∈ full.migrated, m.project = "b") ∧
      (Migration.plan twoProjects twoProjectsLoaded shortSettings ⟨some "b", true⟩).result = .ok part ∧
      part.PartOf full twoProjectsLoaded.projects "b" := by
  obtain ⟨full, hfull, hlists⟩ := Option.map_eq_some_iff.mp plan_twoProjects
  obtain ⟨hmigrated, hskipped⟩ := Prod.mk.inj hlists
  have hfull := result_of_toOption hfull
  have hshares : full.SharesWithin "b" := by
    unfold Plan.SharesWithin
    rw [hskipped, hmigrated]
    intro s hs _ path hreason m hm hsame
    rw [List.mem_singleton.mp hs] at hreason
    obtain rfl := SkipReason.sharedConfig.inj hreason
    rcases List.mem_cons.mp hm with rfl | hm
    · exact absurd hsame (by decide)
    · rw [List.mem_singleton.mp hm]
  have hsome : ∃ m ∈ full.migrated, m.project = "b" := by
    rw [hmigrated]
    exact ⟨_, List.mem_cons_of_mem _ List.mem_cons_self, rfl⟩
  obtain ⟨part, hpart, hrest⟩ := (plan_project load_twoProjects hfull "b" hshares).1 hsome
  exact ⟨full, part, load_twoProjects, hfull, hshares, hsome, hpart, hrest⟩

end Workyard.Migration
