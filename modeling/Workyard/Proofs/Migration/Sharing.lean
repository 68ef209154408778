import Workyard.Proofs.Migration.Accounts

/-!
# Shared configs

Planning tells configs apart by the components of their paths. That tells files apart where the
paths stay inside the workspace: a path that goes through a parent, or one that starts at the
root, may lead to a config that is claimed by another path already, which is then migrated again.
-/

namespace Workyard

set_option autoImplicit false

open FilePath

/-! ### Paths inside a directory -/

/-- A path that goes nowhere but down. -/
def FilePath.Inner (p : FilePath) : Prop :=
  p.isAbsolute = false ∧ .parent ∉ p.within

namespace Disk

variable {d : Disk} {l : Location} {p q q' : FilePath}

theorem place_join (hp : p.text ≠ "") (hq : q.isAbsolute = false) :
    d.place (p.join q) = q.within.foldl Component.enter (d.place p) := by
  unfold place
  rw [components_join hp hq, List.foldl_append]

theorem exists_names_within (h : .parent ∉ q.within) :
    ∃ names : List String, q.within = names.map Component.name := by
  unfold within at h ⊢
  generalize Text.splitAt '/' q.text.toList = segments at h ⊢
  induction segments with
  | nil => exact ⟨[], rfl⟩
  | cons s ss ih =>
    by_cases hs : countsWithin s = true
    · rw [List.filter_cons_of_pos hs, List.map_cons] at h ⊢
      obtain ⟨names, hnames⟩ := ih fun hmem => h (List.mem_cons_of_mem _ hmem)
      have hdot : s ≠ ['.'] := by
        unfold countsWithin at hs
        exact (of_decide_eq_true hs).2
      have hdots : s ≠ ['.', '.'] := by
        rintro rfl
        exact h List.mem_cons_self
      refine ⟨String.ofList s :: names, ?_⟩
      rw [hnames, componentOf, if_neg hdot, if_neg hdots]
      rfl
    · rw [List.filter_cons_of_neg hs] at h ⊢
      exact ih h

theorem foldl_enter_names (names : List String) (l : Location) :
    (names.map Component.name).foldl Component.enter l = l ++ names := by
  induction names generalizing l with
  | nil => simp
  | cons name names ih =>
    rw [List.map_cons, List.foldl_cons, ih]
    simp [Component.enter]

/-- Below a directory a place is spelled in one way only. -/
theorem same_of_place_inner (hp : p.text ≠ "") (hq : q.Inner) (hq' : q'.Inner)
    (h : d.place (p.join q) = d.place (p.join q')) : (p.join q).same (p.join q') = true := by
  obtain ⟨names, hnames⟩ := exists_names_within hq.2
  obtain ⟨names', hnames'⟩ := exists_names_within hq'.2
  rw [place_join hp hq.1, place_join hp hq'.1, hnames, hnames', foldl_enter_names,
    foldl_enter_names] at h
  rw [same_iff, components_join hp hq.1, components_join hp hq'.1, hnames, hnames',
    List.append_cancel_left h]

theorem entry_of_isFile (h : d.isFile p = true) : d.entry p =
    match d.root.find? (d.place p) with
    | some e => .ok e
    | none => .error .notFound := by
  have hlocate : d.locate p = .ok (d.place p) := (view_of_isFile h).1
  cases hfind : d.root.find? (d.place p) with
  | none => simp [entry, hlocate, hfind]
  | some e => simp [entry, hlocate, hfind]

/-- Files in one place are one file. -/
theorem readText_of_place (hp : d.isFile p = true) (hq : d.isFile q = true)
    (h : d.place p = d.place q) : d.readText p = d.readText q := by
  unfold readText
  rw [entry_of_isFile hp, entry_of_isFile hq, h]

end Disk

theorem Workspace.root_ne_empty {d : Disk} {root : FilePath} {ignore : List String} {w : Workspace}
    (h : (Workspace.load d root ignore).result = .ok w) : w.root.text ≠ "" := by
  unfold Workspace.load at h
  obtain ⟨paths, hpaths, h⟩ := Logged.result_bind_eq_ok.mp h
  obtain ⟨projects, _, h⟩ := Logged.result_bind_eq_ok.mp h
  obtain rfl := Except.ok.inj h
  intro hroot
  dsimp only at hroot
  simp [Workspace.discover, Disk.entry, Disk.locate, hroot] at hpaths

namespace Migration

/-- What the claims of a plan come to. The candidates are those of the workspace at `root`. -/
structure Plan.ClaimsByPath (plan : Plan) (d : Disk) (root : FilePath)
    (cs : List (Project × Target)) : Prop where
  /-- A migrated target's config is the one that its options name. -/
  named : ∀ m ∈ plan.migrated, ∃ p t name, (p, t) ∈ cs ∧ m.key = candidateKey (p, t) ∧
    Planner.configName? t = some name ∧ m.webpackConfig = root.join ⟨name⟩
  apart : plan.migrated.Pairwise fun m m' => m.webpackConfig.same m'.webpackConfig = false
  inner : plan.migrated.Pairwise fun m m' => ∀ n n' : FilePath, m.webpackConfig = root.join n →
    m'.webpackConfig = root.join n' → n.Inner → n'.Inner →
      d.place m.webpackConfig ≠ d.place m'.webpackConfig
  /-- A candidate that names the file of an earlier one shares it if it spells the path of an
  earlier one. -/
  shared : ∀ cs₁ p t cs₂ name, cs = cs₁ ++ (p, t) :: cs₂ → Planner.configName? t = some name →
    (∃ m ∈ plan.migrated, m.key ∈ cs₁.map candidateKey ∧
      m.webpackConfig.same (root.join ⟨name⟩) = true) →
    ⟨p.name, t.name, .sharedConfig (root.join ⟨name⟩)⟩ ∈ plan.skipped
  /-- Otherwise it migrates the file again. -/
  again : ∀ cs₁ p t cs₂ name, cs = cs₁ ++ (p, t) :: cs₂ → Planner.configName? t = some name →
    d.isFile (root.join ⟨name⟩) = true →
    (∃ m ∈ plan.migrated, m.key ∈ cs₁.map candidateKey ∧
      d.place m.webpackConfig = d.place (root.join ⟨name⟩)) →
    (¬ ∃ m ∈ plan.migrated, m.key ∈ cs₁.map candidateKey ∧
      m.webpackConfig.same (root.join ⟨name⟩) = true) →
    ∃ m ∈ plan.migrated, m.key = candidateKey (p, t) ∧ m.webpackConfig = root.join ⟨name⟩

namespace Planner

variable {pl : Planner} {p : Project} {t : Target} {m : MigratedTarget} {vs xs ys : List Verdict}
variable {cs cs₁ cs₂ : List (Project × Target)}

/-- Why a target is migrated. -/
theorem Judged.exists_source (h : pl.Judged [] cs vs) (hm : m ∈ vs.filterMap Verdict.migrated?) :
    ∃ p t name source e, (p, t) ∈ cs ∧ m.key = candidateKey (p, t) ∧ configName? t = some name ∧
      m.webpackConfig = pl.configPath name ∧ pl.disk.isFile m.webpackConfig = true ∧
      pl.disk.readText m.webpackConfig = .ok source ∧
      (Options.extract Options.MarkerNames.standard source).result = .ok (some e) := by
  obtain ⟨v, hv, hmigrated⟩ := List.mem_filterMap.mp hm
  obtain ⟨xs, ys, rfl⟩ := List.append_of_mem hv
  obtain ⟨cs₁, p, t, cs₂, rfl, _, hkey, hjudge⟩ := h.split
  have hmkey := key_of_migrated? hmigrated
  obtain ⟨project, target, outcome⟩ := v
  dsimp only at hjudge
  cases judgement_of_judge hjudge with
  | migrated hname hclaimed hfile hread hextract =>
    rw [Verdict.migrated?_migrate, Option.some_inj] at hmigrated
    subst hmigrated
    exact ⟨p, t, _, _, _, by simp, hmkey.trans hkey, hname, rfl, hfile, hread, hextract⟩
  | unnamed => simp at hmigrated
  | shared => simp at hmigrated
  | missing => simp at hmigrated
  | unmarked => simp at hmigrated

/-- A target that is migrated for an earlier candidate is migrated by an earlier verdict. -/
theorem mem_before (hkeys : (vs.map (·.key)).Nodup) (hvs : vs = xs ++ ys)
    (hm : m ∈ vs.filterMap Verdict.migrated?) (hkey : m.key ∈ xs.map (·.key)) :
    m ∈ xs.filterMap Verdict.migrated? := by
  subst hvs
  rw [List.filterMap_append] at hm
  rcases List.mem_append.mp hm with hm | hm
  · exact hm
  · have hkey' := (migrated_sublist ys).subset (List.mem_map_of_mem hm)
    rw [List.map_append, List.nodup_append] at hkeys
    exact absurd rfl (hkeys.2.2 _ hkey _ hkey')

theorem exists_migrated {project target content : String} {config legacy : FilePath} {multiple : Bool}
    (h : ⟨project, target, .migrate config legacy content multiple⟩ ∈ vs) :
    ∃ m ∈ vs.filterMap Verdict.migrated?, m.key = (project, target) ∧ m.webpackConfig = config :=
  ⟨_, List.mem_filterMap.mpr ⟨_, h, Verdict.migrated?_migrate⟩, rfl, rfl⟩

end Planner

section Loaded

variable {d d₀ : Disk} {root : FilePath} {ignore : List String} {w : Workspace}
variable {settings : MigrateSettings} {request : Request} {plan : Plan}

/-- A file is claimed by its path: it is migrated once for each path that spells it. -/
theorem plan_claimsByPath (hw : (Workspace.load d₀ root ignore).result = .ok w)
    (h : (Migration.plan d w settings request).result = .ok plan) :
    plan.ClaimsByPath d w.root (candidates settings request w.projects) := by
  obtain ⟨renderer, vs, ws, hplan, _, hjudged, _⟩ := rounds_of_plan hw h
  have hmigrated : plan.migrated = vs.filterMap Verdict.migrated? := by rw [hplan]; rfl
  have hskipped : plan.skipped = vs.filterMap Verdict.skipped? := by rw [hplan]; rfl
  have hkeys : (vs.map (·.key)).Nodup := by
    rw [hjudged.map_key]
    exact nodup_candidates (Workspace.nodup_names_of_load hw)
  have hapart : plan.migrated.Pairwise fun m m' => m.webpackConfig.same m'.webpackConfig = false := by
    have hclaims := hjudged.pairwise_claims .nil
    rwa [List.nil_append, Planner.claims_eq, ← hmigrated, List.pairwise_map] at hclaims
  rw [hmigrated] at hapart
  clear hplan
  refine ⟨?_, hmigrated ▸ hapart, ?_, ?_, ?_⟩
  · intro m hm
    rw [hmigrated] at hm
    obtain ⟨p, t, name, source, e, hc, hkey, hname, hpath, _⟩ := hjudged.exists_source hm
    exact ⟨p, t, name, hc, hkey, hname, hpath⟩
  · rw [hmigrated]
    refine hapart.imp fun {m m'} hne n n' hn hn' hinner hinner' hplace => ?_
    rw [hn, hn'] at hne hplace
    have hsame := Disk.same_of_place_inner (Workspace.root_ne_empty hw) hinner hinner' hplace
    rw [hne] at hsame
    exact absurd hsame Bool.false_ne_true
  · rintro cs₁ p t cs₂ name hcs hname ⟨m, hm, hkey, hsame⟩
    rw [hcs] at hjudged
    obtain ⟨xs, v, ys, rfl, hbefore, hvkey, hjudge⟩ := hjudged.split_candidates
    rw [hmigrated] at hm
    rw [← hbefore.map_key] at hkey
    have hm := Planner.mem_before hkeys rfl hm hkey
    have hclaimed := (Planner.claimed_iff xs).mpr ⟨m, hm, hsame⟩
    rw [hskipped]
    refine List.mem_filterMap.mpr ⟨v, by simp, ?_⟩
    obtain ⟨project, target, outcome⟩ := v
    obtain ⟨rfl, rfl⟩ := Prod.mk.inj hvkey
    cases Planner.judgement_of_judge hjudge with
    | shared hname' =>
      obtain rfl := Option.some.inj (hname.symm.trans hname')
      rfl
    | unnamed hname' => simp [hname] at hname'
    | missing hname' hfree =>
      obtain rfl := Option.some.inj (hname.symm.trans hname')
      exact absurd (hclaimed.symm.trans hfree) Bool.noConfusion
    | unmarked hname' hfree =>
      obtain rfl := Option.some.inj (hname.symm.trans hname')
      exact absurd (hclaimed.symm.trans hfree) Bool.noConfusion
    | migrated hname' hfree =>
      obtain rfl := Option.some.inj (hname.symm.trans hname')
      exact absurd (hclaimed.symm.trans hfree) Bool.noConfusion
  · rintro cs₁ p t cs₂ name hcs hname hfile ⟨m, hm, hkey, hplace⟩ hfree
    rw [hcs] at hjudged
    rw [hmigrated] at hm
    obtain ⟨_, _, _, source, e, _, _, _, _, hmfile, hread, hextract⟩ := hjudged.exists_source hm
    obtain ⟨xs, v, ys, rfl, hbefore, hvkey, hjudge⟩ := hjudged.split_candidates
    rw [← hbefore.map_key] at hfree
    rw [Disk.readText_of_place hmfile hfile hplace] at hread
    rw [hmigrated]
    obtain ⟨project, target, outcome⟩ := v
    obtain ⟨rfl, rfl⟩ := Prod.mk.inj hvkey
    cases Planner.judgement_of_judge hjudge with
    | migrated hname' =>
      obtain rfl := Option.some.inj (hname.symm.trans hname')
      exact Planner.exists_migrated (List.mem_append_right xs List.mem_cons_self)
    | shared hname' hclaimed =>
      obtain rfl := Option.some.inj (hname.symm.trans hname')
      obtain ⟨m', hm', hsame⟩ := (Planner.claimed_iff xs).mp hclaimed
      refine absurd ⟨m', ?_, (migrated_sublist xs).subset (List.mem_map_of_mem hm'), hsame⟩ hfree
      rw [hmigrated, List.filterMap_append]
      exact List.mem_append_left _ hm'
    | unnamed hname' => simp [hname] at hname'
    | missing hname' _ hnone =>
      obtain rfl := Option.some.inj (hname.symm.trans hname')
      exact absurd (hfile.symm.trans hnone) Bool.noConfusion
    | unmarked hname' _ _ hread' hextract' =>
      obtain rfl := Option.some.inj (hname.symm.trans hname')
      obtain rfl := Except.ok.inj (hread.symm.trans hread')
      have hnone := Except.ok.inj (hextract.symm.trans hextract')
      simp at hnone

end Loaded

theorem plan_claimsByPath_respelled : ∃ (settings : Settings) (w : Workspace) (plan : Plan),
    (Workspace.load respelled ⟨"ws"⟩ settings.ignore).result = .ok w ∧
      (Migration.plan respelled w settings.migrate ⟨none, true⟩).result = .ok plan ∧
        plan.ClaimsByPath respelled w.root (candidates settings.migrate ⟨none, true⟩ w.projects) := by
  obtain ⟨plan, hplan, _⟩ := Option.map_eq_some_iff.mp planAt_respelled
  obtain ⟨settings, w, _, hw, hplan⟩ := planAt_eq_ok (result_of_toOption hplan)
  exact ⟨settings, w, plan, hw, hplan, plan_claimsByPath hw hplan⟩

/-- Two targets that are migrated have one file for their config. -/
theorem respelled_config_is_migrated_twice : ∃ plan,
    (planAt respelled ⟨"ws"⟩ ⟨none, true⟩).result = .ok plan ∧
      ∃ m ∈ plan.migrated, ∃ m' ∈ plan.migrated, m.target = "a" ∧ m'.target = "b" ∧
        respelled.place m.webpackConfig = respelled.place m'.webpackConfig ∧
        respelled.isFile m.webpackConfig = true ∧ respelled.isFile m'.webpackConfig = true := by
  obtain ⟨plan, hplan, hlists⟩ := Option.map_eq_some_iff.mp planAt_respelled
  obtain ⟨hmigrated, _⟩ := Prod.mk.inj hlists
  refine ⟨plan, result_of_toOption hplan, ⟨"ws", "a", ⟨"ws/w.js"⟩, ⟨"ws/w.old.js"⟩, false⟩, ?_,
    ⟨"ws", "b", ⟨"ws/t/../w.js"⟩, ⟨"ws/t/../w.old.js"⟩, false⟩, ?_, rfl, rfl, ?_, ?_, ?_⟩
  · rw [hmigrated]
    exact List.mem_cons_self
  · rw [hmigrated]
    exact List.mem_cons_of_mem _ List.mem_cons_self
  · decide
  · decide
  · decide

end Migration

end Workyard
