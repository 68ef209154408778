import Workyard.Migration.Planning

/-!
# Verdicts

Planning judges the candidates one after the other, each with the verdicts on those before it,
and writes the file of a project after its last candidate.
-/

namespace Workyard.Migration

set_option autoImplicit false

/-- The targets of a project that may be migrated, each with the project. -/
def candidatesOf (settings : MigrateSettings) (p : Project) : List (Project × Target) :=
  (p.targets.filter fun t => t.executor = some settings.webpackExecutor).map fun t => (p, t)

/-- The targets that a migration looks at, in the order of projects and targets. -/
def candidates (settings : MigrateSettings) (request : Request) (ps : List Project) :
    List (Project × Target) :=
  (ps.filter fun p => ∀ name ∈ request.project, p.name = name).flatMap (candidatesOf settings)

/-- The names that a candidate goes by. -/
def candidateKey (c : Project × Target) : String × String :=
  (c.1.name, c.2.name)

def MigratedTarget.key (m : MigratedTarget) : String × String :=
  (m.project, m.target)

def SkippedTarget.key (s : SkippedTarget) : String × String :=
  (s.project, s.target)

namespace Verdict

variable {project target : String} {config legacy : FilePath} {content : String} {multiple : Bool}
variable {reason : SkipReason}

def key (v : Verdict) : String × String :=
  (v.project, v.target)

@[simp] theorem migrated?_migrate :
    (⟨project, target, .migrate config legacy content multiple⟩ : Verdict).migrated? =
      some ⟨project, target, config, legacy, multiple⟩ := rfl

@[simp] theorem migrated?_skip : (⟨project, target, .skip reason⟩ : Verdict).migrated? = none := rfl

@[simp] theorem skipped?_migrate :
    (⟨project, target, .migrate config legacy content multiple⟩ : Verdict).skipped? = none := rfl

@[simp] theorem skipped?_skip :
    (⟨project, target, .skip reason⟩ : Verdict).skipped? = some ⟨project, target, reason⟩ := rfl

end Verdict

namespace Planner

variable {pl : Planner} {p : Project} {t : Target} {outcome : Outcome}
variable {claimed : List FilePath} {before own vs xs ys : List Verdict} {v : Verdict}
variable {cs cs' : List (Project × Target)} {ps : List Project} {ws : List FileWrite}

/-- The path of the config that a target names. -/
def configPath (pl : Planner) (name : String) : FilePath :=
  pl.root.join ⟨name⟩

/-- What may become of a candidate, and why. -/
inductive Judgement (pl : Planner) (claimed : List FilePath) (p : Project) (t : Target) : Outcome → Prop
  | unnamed (h : configName? t = none) : Judgement pl claimed p t (.skip .noWebpackConfig)
  | shared {name : String} (h : configName? t = some name)
      (hclaimed : claimed.any (·.same (pl.configPath name)) = true) :
      Judgement pl claimed p t (.skip (.sharedConfig (pl.configPath name)))
  | missing {name : String} (h : configName? t = some name)
      (hclaimed : claimed.any (·.same (pl.configPath name)) = false)
      (hfile : pl.disk.isFile (pl.configPath name) = false) :
      Judgement pl claimed p t (.skip (.configNotFound (pl.configPath name)))
  | unmarked {name source : String} (h : configName? t = some name)
      (hclaimed : claimed.any (·.same (pl.configPath name)) = false)
      (hfile : pl.disk.isFile (pl.configPath name) = true)
      (hread : pl.disk.readText (pl.configPath name) = .ok source)
      (hextract : (Options.extract Options.MarkerNames.standard source).result = .ok none) :
      Judgement pl claimed p t (.skip (.noMarker (pl.configPath name)))
  | migrated {name source content : String} {e : Options.Extraction} {multiple : Bool}
      (h : configName? t = some name)
      (hclaimed : claimed.any (·.same (pl.configPath name)) = false)
      (hfile : pl.disk.isFile (pl.configPath name) = true)
      (hread : pl.disk.readText (pl.configPath name) = .ok source)
      (hextract : (Options.extract Options.MarkerNames.standard source).result = .ok (some e)) :
      Judgement pl claimed p t (.migrate (pl.configPath name)
        ((pl.configPath name).withFileName
          (Webpack.legacyFileName ((pl.configPath name).fileName?.getD ""))) content multiple)

theorem migrate_eq_ok {path : FilePath} {e : Options.Extraction} (h : pl.migrate p path e = .ok outcome) :
    ∃ content multiple, outcome = .migrate path
      (path.withFileName (Webpack.legacyFileName (path.fileName?.getD ""))) content multiple := by
  unfold migrate at h
  split at h
  · simp at h
  · dsimp only at h
    split at h
    · simp at h
    · exact ⟨_, _, (Except.ok.inj h).symm⟩

theorem judgement_of_judge (h : (pl.judge claimed p t).result = .ok outcome) :
    pl.Judgement claimed p t outcome := by
  unfold judge at h
  split at h
  · rename_i hname
    obtain rfl := Except.ok.inj h
    exact .unnamed hname
  · rename_i name hname
    change (if claimed.any (·.same (pl.configPath name)) then _ else
      if !pl.disk.isFile (pl.configPath name) then _ else _ : Logged _ _).result = _ at h
    cases hclaimed : claimed.any (·.same (pl.configPath name)) with
    | true =>
      simp only [hclaimed, if_true] at h
      obtain rfl := Except.ok.inj h
      exact .shared hname hclaimed
    | false =>
      cases hfile : pl.disk.isFile (pl.configPath name) with
      | false =>
        simp only [hclaimed, hfile] at h
        obtain rfl := Except.ok.inj h
        exact .missing hname hclaimed hfile
      | true =>
        simp only [hclaimed, hfile, Bool.not_true, Bool.false_eq_true, if_false] at h
        unfold convert at h
        obtain ⟨source, hread, h⟩ := Logged.result_bind_eq_ok.mp h
        obtain ⟨extraction, hextract, h⟩ := Logged.result_bind_eq_ok.mp h
        have hread := (Logged.result_mapError_eq_ok (x := .ofExcept _)).mp hread
        have hextract := Logged.result_mapError_eq_ok.mp hextract
        cases extraction with
        | none =>
          obtain rfl := Except.ok.inj h
          exact .unmarked hname hclaimed hfile hread hextract
        | some e =>
          obtain ⟨content, multiple, rfl⟩ := migrate_eq_ok h
          exact .migrated hname hclaimed hfile hread hextract

/-- The verdicts on candidates, after others that were judged before. -/
inductive Judged (pl : Planner) : List Verdict → List (Project × Target) → List Verdict → Prop
  | nil (before : List Verdict) : Judged pl before [] []
  | cons {before vs : List Verdict} {p : Project} {t : Target} {outcome : Outcome}
      {cs : List (Project × Target)}
      (first : (pl.judge (claims before) p t).result = .ok outcome)
      (rest : Judged pl (before ++ [⟨p.name, t.name, outcome⟩]) cs vs) :
      Judged pl before ((p, t) :: cs) (⟨p.name, t.name, outcome⟩ :: vs)

namespace Judged

theorem append (h : pl.Judged before cs xs) (h' : pl.Judged (before ++ xs) cs' ys) :
    pl.Judged before (cs ++ cs') (xs ++ ys) := by
  induction h with
  | nil before => simpa using h'
  | cons first rest ih =>
    refine .cons first (ih ?_)
    simpa using h'

theorem map_key (h : pl.Judged before cs vs) : vs.map (·.key) = cs.map candidateKey := by
  induction h with
  | nil => rfl
  | cons first rest ih => rw [List.map_cons, List.map_cons, ih]; rfl

theorem split (h : pl.Judged before cs (xs ++ v :: ys)) :
    ∃ cs₁ p t cs₂, cs = cs₁ ++ (p, t) :: cs₂ ∧ pl.Judged before cs₁ xs ∧
      v.key = candidateKey (p, t) ∧ (pl.judge (claims (before ++ xs)) p t).result = .ok v.outcome := by
  induction xs generalizing before cs with
  | nil =>
    cases h with
    | cons first rest => exact ⟨[], _, _, _, rfl, .nil before, rfl, by simpa using first⟩
  | cons x xs ih =>
    cases h with
    | cons first rest =>
      obtain ⟨cs₁, p, t, cs₂, rfl, hjudged, hkey, hjudge⟩ := ih rest
      exact ⟨_ :: cs₁, p, t, cs₂, rfl, .cons first hjudged, hkey, by simpa using hjudge⟩

theorem split_candidates {cs₁ cs₂ : List (Project × Target)}
    (h : pl.Judged before (cs₁ ++ (p, t) :: cs₂) vs) :
    ∃ xs v ys, vs = xs ++ v :: ys ∧ pl.Judged before cs₁ xs ∧ v.key = candidateKey (p, t) ∧
      (pl.judge (claims (before ++ xs)) p t).result = .ok v.outcome := by
  induction cs₁ generalizing before vs with
  | nil =>
    cases h with
    | cons first rest => exact ⟨[], _, _, rfl, .nil before, rfl, by simpa using first⟩
  | cons c cs₁ ih =>
    cases h with
    | cons first rest =>
      obtain ⟨xs, v, ys, rfl, hjudged, hkey, hjudge⟩ := ih rest
      exact ⟨_ :: xs, v, ys, rfl, .cons first hjudged, hkey, by simpa using hjudge⟩

end Judged

/-- A project with a candidate runs no executor that is in the way. -/
def Compatible (pl : Planner) (p : Project) : Prop :=
  ∀ t ∈ p.targets, pl.isCandidate t = true → p.usesAny pl.settings.incompatibleExecutors = false

theorem judgeAll_eq_ok {ts : List Target} :
    (pl.judgeAll before p ts).result = .ok vs ↔
      (∀ t ∈ ts, pl.isCandidate t = true →
        p.usesAny pl.settings.incompatibleExecutors = false) ∧
      ∃ own, vs = before ++ own ∧
        pl.Judged before ((ts.filter pl.isCandidate).map fun t => (p, t)) own := by
  induction ts generalizing before with
  | nil =>
    constructor
    · intro h
      obtain rfl := Except.ok.inj h
      exact ⟨by simp, [], by simp, .nil _⟩
    · rintro ⟨_, own, rfl, hown⟩
      cases hown
      simp [judgeAll]
  | cons t ts ih =>
    rw [List.forall_mem_cons]
    unfold judgeAll
    by_cases hcandidate : pl.isCandidate t = true
    · rw [if_pos hcandidate, List.filter_cons_of_pos hcandidate]
      cases hincompatible : p.usesAny pl.settings.incompatibleExecutors with
      | true => simp [hcandidate]
      | false =>
        rw [if_neg Bool.false_ne_true]
        constructor
        · intro h
          obtain ⟨outcome, hjudge, h⟩ := Logged.result_bind_eq_ok.mp h
          obtain ⟨_, _, h⟩ := Logged.result_bind_eq_ok.mp h
          obtain ⟨_, own, rfl, hown⟩ := ih.mp h
          exact ⟨by simp, _, List.append_assoc .., .cons hjudge hown⟩
        · rintro ⟨_, own, rfl, hown⟩
          cases hown with
          | cons first rest =>
            refine Logged.result_bind_eq_ok.mpr ⟨_, first, ?_⟩
            refine Logged.result_bind_eq_ok.mpr ⟨(), rfl, ?_⟩
            exact ih.mpr ⟨by simp [hincompatible], _, by simp, rest⟩
    · rw [if_neg hcandidate, List.filter_cons_of_neg hcandidate, ih]
      simp [hcandidate]

/-- The targets among verdicts that are migrated. -/
def flagged (vs : List Verdict) : List String :=
  (vs.filterMap Verdict.migrated?).map (·.target)

/-- Projects planned one after the other: the verdicts on their candidates, and the files of
those that have a target to migrate. -/
inductive Rounds (pl : Planner) : List Verdict → List Project → List Verdict → List FileWrite → Prop
  | nil (before : List Verdict) : Rounds pl before [] [] []
  | idle {before own vs : List Verdict} {p : Project} {ps : List Project} {ws : List FileWrite}
      (judged : pl.Judged before (candidatesOf pl.settings p) own)
      (none : own.filterMap Verdict.migrated? = [])
      (rest : Rounds pl (before ++ own) ps vs ws) : Rounds pl before (p :: ps) (own ++ vs) ws
  | writing {before own vs : List Verdict} {p : Project} {ps : List Project} {w : FileWrite}
      {ws : List FileWrite}
      (judged : pl.Judged before (candidatesOf pl.settings p) own)
      (some : own.filterMap Verdict.migrated? ≠ [])
      (write : pl.projectWrite p (flagged own) = .ok w)
      (rest : Rounds pl (before ++ own) ps vs ws) : Rounds pl before (p :: ps) (own ++ vs) (w :: ws)

namespace Rounds

theorem judged (h : pl.Rounds before ps vs ws) :
    pl.Judged before (ps.flatMap (candidatesOf pl.settings)) vs := by
  induction h with
  | nil before => exact .nil before
  | idle judged none rest ih => exact judged.append ih
  | writing judged some write rest ih => exact judged.append ih

end Rounds

theorem planProject_eq_ok {g g' : Progress} :
    (pl.planProject g p).result = .ok g' ↔
      pl.Compatible p ∧ ∃ own, pl.Judged g.verdicts (candidatesOf pl.settings p) own ∧
        (own.filterMap Verdict.migrated? = [] ∧ g' = ⟨g.verdicts ++ own, g.projectWrites⟩ ∨
          own.filterMap Verdict.migrated? ≠ [] ∧ ∃ w, pl.projectWrite p (flagged own) = .ok w ∧
            g' = ⟨g.verdicts ++ own, g.projectWrites ++ [w]⟩) := by
  unfold planProject
  constructor
  · intro h
    obtain ⟨verdicts, hverdicts, h⟩ := Logged.result_bind_eq_ok.mp h
    obtain ⟨hcompatible, own, rfl, hown⟩ := judgeAll_eq_ok.mp hverdicts
    rw [List.drop_left] at h
    dsimp only at h
    refine ⟨hcompatible, own, hown, ?_⟩
    split at h
    · rename_i hnone
      exact .inl ⟨hnone, (Except.ok.inj h).symm⟩
    · rename_i hsome
      obtain ⟨w, hwrite, h⟩ := Logged.result_bind_eq_ok.mp h
      exact .inr ⟨hsome, w, hwrite, (Except.ok.inj h).symm⟩
  · rintro ⟨hcompatible, own, hown, hrest⟩
    refine Logged.result_bind_eq_ok.mpr
      ⟨_, judgeAll_eq_ok.mpr ⟨hcompatible, own, rfl, hown⟩, ?_⟩
    rw [List.drop_left]
    dsimp only
    rcases hrest with ⟨hnone, rfl⟩ | ⟨hsome, w, hwrite, rfl⟩
    · rw [hnone]
      rfl
    · split
      · rename_i hnone
        exact absurd hnone hsome
      · exact Logged.result_bind_eq_ok.mpr ⟨w, hwrite, rfl⟩

/-- Planning succeeds just when there are rounds for the projects that are looked at, and nothing is
in the way of one. -/
theorem planProjects_eq_ok {g g' : Progress} :
    (pl.planProjects g ps).result = .ok g' ↔
      (∀ p ∈ ps.filter pl.isSelected, pl.Compatible p) ∧
      ∃ vs ws, g' = ⟨g.verdicts ++ vs, g.projectWrites ++ ws⟩ ∧
        pl.Rounds g.verdicts (ps.filter pl.isSelected) vs ws := by
  induction ps generalizing g with
  | nil =>
    constructor
    · intro h
      obtain rfl := Except.ok.inj h
      exact ⟨by simp, [], [], by simp, .nil _⟩
    · rintro ⟨_, vs, ws, rfl, hrounds⟩
      cases hrounds
      simp [planProjects]
  | cons p ps ih =>
    unfold planProjects
    by_cases hselected : pl.isSelected p = true
    · rw [if_pos hselected, List.filter_cons_of_pos hselected, List.forall_mem_cons]
      constructor
      · intro h
        obtain ⟨g₁, hproject, h⟩ := Logged.result_bind_eq_ok.mp h
        obtain ⟨hrest, vs, ws, rfl, hrounds⟩ := ih.mp h
        obtain ⟨hcompatible, own, hown, hcases⟩ := planProject_eq_ok.mp hproject
        refine ⟨⟨hcompatible, hrest⟩, own ++ vs, ?_⟩
        rcases hcases with ⟨hnone, rfl⟩ | ⟨hsome, w, hwrite, rfl⟩
        · exact ⟨ws, by rw [List.append_assoc], .idle hown hnone hrounds⟩
        · exact ⟨w :: ws, by simp, .writing hown hsome hwrite hrounds⟩
      · rintro ⟨⟨hcompatible, hrest⟩, vs, ws, rfl, hrounds⟩
        refine Logged.result_bind_eq_ok.mpr ?_
        cases hrounds with
        | idle judged none rest =>
          refine ⟨_, planProject_eq_ok.mpr ⟨hcompatible, _, judged, .inl ⟨none, rfl⟩⟩, ?_⟩
          exact ih.mpr ⟨hrest, _, _, by simp, rest⟩
        | writing judged some write rest =>
          refine ⟨_, planProject_eq_ok.mpr ⟨hcompatible, _, judged, .inr ⟨some, _, write, rfl⟩⟩, ?_⟩
          exact ih.mpr ⟨hrest, _, _, by simp, rest⟩
    · rw [if_neg hselected, List.filter_cons_of_neg hselected]
      exact ih

/-- A run whose rounds are known ends with the plan of their verdicts, unless they migrate nothing. -/
theorem result_run (h : pl.Rounds [] (ps.filter pl.isSelected) vs ws)
    (hcompatible : ∀ p ∈ ps.filter pl.isSelected, pl.Compatible p) :
    (pl.run ps).result =
      if vs.filterMap Verdict.migrated? = [] then .error .nothingToMigrate
      else .ok (pl.assemble ⟨vs, ws⟩) := by
  have hg : (pl.planProjects ⟨[], []⟩ ps).result = .ok ⟨vs, ws⟩ :=
    planProjects_eq_ok.mpr ⟨hcompatible, vs, ws, rfl, h⟩
  unfold run
  rw [Logged.result_bind, hg]
  simp only [Bind.bind, Except.bind, assemble, List.isEmpty_iff]
  split <;> rfl

/-- A run that succeeds makes its plan of the verdicts on all candidates. -/
theorem run_eq_ok {plan : Plan} (h : (pl.run ps).result = .ok plan) :
    (∀ p ∈ ps.filter pl.isSelected, pl.Compatible p) ∧
    ∃ vs ws, pl.Rounds [] (ps.filter pl.isSelected) vs ws ∧ plan = pl.assemble ⟨vs, ws⟩ ∧
      plan.migrated ≠ [] := by
  obtain ⟨g, hg, _⟩ := Logged.result_bind_eq_ok.mp h
  obtain ⟨hcompatible, vs, ws, rfl, hrounds⟩ := planProjects_eq_ok.mp hg
  rw [result_run hrounds hcompatible] at h
  split at h
  · simp at h
  · rename_i hsome
    obtain rfl := Except.ok.inj h
    exact ⟨hcompatible, vs, ws, hrounds, rfl, hsome⟩

theorem rounds_of_run {plan : Plan} (h : (pl.run ps).result = .ok plan) :
    ∃ vs ws, pl.Rounds [] (ps.filter pl.isSelected) vs ws ∧ plan = pl.assemble ⟨vs, ws⟩ ∧
      plan.migrated ≠ [] :=
  (run_eq_ok h).2

end Planner

end Workyard.Migration
