import Workyard.Proofs.Migration.Accounts
import Workyard.Proofs.Webpack.Standard

/-!
# How planning ends

Planning stops at the first failure. The candidates of the projects that are looked at come one
after the other, and behind the last candidate of a project its file. A project with a target that is
in the way fails at its first candidate, without a look at the disk. Where nothing fails and every
candidate is passed over, there is nothing to migrate.
-/

namespace Workyard.Migration

set_option autoImplicit false

namespace Planner

variable {pl : Planner} {p q : Project} {t : Target} {claimed : List FilePath} {path : FilePath}
variable {before own vs : List Verdict} {ps : List Project} {ws : List FileWrite} {g : Progress}
variable {e : MigrationError} {targets : List String} {vs' : List Verdict}
variable {cs : List (Project × Target)}

/-! ### What may fail -/

/-- The config at a path cannot be read, its markers or its options are broken, or no new config can
be made of it. -/
inductive ConfigFails (pl : Planner) (p : Project) (path : FilePath) : MigrationError → Prop
  | unreadable {fault : Disk.Fault} (hread : pl.disk.readText path = .error fault) :
      ConfigFails pl p path (.io path fault)
  | broken {source : String} {fault : Options.OptionError}
      (hread : pl.disk.readText path = .ok source)
      (hextract : (Options.extract Options.MarkerNames.standard source).result = .error fault) :
      ConfigFails pl p path (.options path fault)
  | unparsed {source : String} {x : Options.Extraction} {fault : Options.OptionError}
      (hread : pl.disk.readText path = .ok source)
      (hextract : (Options.extract Options.MarkerNames.standard source).result = .ok (some x))
      (hoptions : pl.appOptions p x = .error fault) : ConfigFails pl p path (.options path fault)
  | unrendered {source : String} {x : Options.Extraction} {options : Option Json.Members}
      {fault : Webpack.RenderError} (hread : pl.disk.readText path = .ok source)
      (hextract : (Options.extract Options.MarkerNames.standard source).result = .ok (some x))
      (hoptions : pl.appOptions p x = .ok options)
      (hrender : pl.renderer.renderConfig
        (.make (path.fileName?.getD "") options x.reactText) = .error fault) :
      ConfigFails pl p path (.render fault)

/-- The config that a candidate names is a file that no earlier one has claimed, and it fails. -/
def CandidateFails (pl : Planner) (claimed : List FilePath) (p : Project) (t : Target)
    (e : MigrationError) : Prop :=
  ∃ name, configName? t = some name ∧ claimed.any (·.same (pl.configPath name)) = false ∧
    pl.disk.isFile (pl.configPath name) = true ∧ pl.ConfigFails p (pl.configPath name) e

/-- A project has no file, or it is not there any more as it was loaded. -/
inductive ProjectFileFails (pl : Planner) (p : Project) : MigrationError → Prop
  | sourceless (hsource : p.source = none) : ProjectFileFails pl p (.noProjectFile p.name)
  | unreadable {path : FilePath} {fault : Disk.Fault} (hsource : p.source = some path)
      (hread : pl.disk.readText path = .error fault) : ProjectFileFails pl p (.io path fault)
  | broken {path : FilePath} {text : String} {fault : Json.Fault} (hsource : p.source = some path)
      (hread : pl.disk.readText path = .ok text) (hparse : Json.parse text = .error fault) :
      ProjectFileFails pl p (.json path fault)

/-- A target of the project is a candidate, and one runs an executor that is in the way. -/
def Blocked (pl : Planner) (p : Project) : Prop :=
  (∃ t ∈ p.targets, t.executor = some pl.settings.webpackExecutor) ∧
    ∃ t ∈ p.targets, ∃ executor ∈ t.executor, executor ∈ pl.settings.incompatibleExecutors

/-- How a project fails, given the verdicts on the candidates of those before it. -/
inductive ProjectFails (pl : Planner) (before : List Verdict) (p : Project) : MigrationError → Prop
  | blocked (h : pl.Blocked p) : ProjectFails pl before p (.moduleFederation p.name)
  | candidate {cs cs' : List (Project × Target)} {t : Target} {own : List Verdict}
      {e : MigrationError} (hfree : ¬ pl.Blocked p)
      (hcandidates : candidatesOf pl.settings p = cs ++ (p, t) :: cs')
      (judged : pl.Judged before cs own)
      (fails : pl.CandidateFails (claims (before ++ own)) p t e) : ProjectFails pl before p e
  | projectFile {own : List Verdict} {e : MigrationError} (hfree : ¬ pl.Blocked p)
      (judged : pl.Judged before (candidatesOf pl.settings p) own)
      (some : own.filterMap Verdict.migrated? ≠ []) (fails : pl.ProjectFileFails p e) :
      ProjectFails pl before p e

/-- The projects before one have been planned, and that one fails. -/
def FailsFrom (pl : Planner) (before : List Verdict) (ps : List Project) (e : MigrationError) : Prop :=
  ∃ done p rest vs ws, ps = done ++ p :: rest ∧ (∀ q ∈ done, ¬ pl.Blocked q) ∧
    pl.Rounds before done vs ws ∧ pl.ProjectFails (before ++ vs) p e

/-- The first failure among projects, in their order. -/
def FirstFailure (pl : Planner) (ps : List Project) (e : MigrationError) : Prop :=
  pl.FailsFrom [] ps e

/-! ### One candidate -/

theorem migrate_eq_error {x : Options.Extraction} : pl.migrate p path x = .error e ↔
    (∃ fault, pl.appOptions p x = .error fault ∧ e = .options path fault) ∨
    ∃ options fault, pl.appOptions p x = .ok options ∧
      pl.renderer.renderConfig (.make (path.fileName?.getD "") options x.reactText) = .error fault ∧
        e = .render fault := by
  unfold migrate
  cases hoptions : pl.appOptions p x with
  | error fault => simp [eq_comm]
  | ok options =>
    dsimp only
    cases hrender : pl.renderer.renderConfig
        (.make (path.fileName?.getD "") options x.reactText) with
    | error fault =>
      constructor
      · rintro ⟨⟩
        exact .inr ⟨options, fault, rfl, hrender, rfl⟩
      · rintro (⟨_, ⟨⟩, _⟩ | ⟨_, fault', ⟨⟩, hfault, rfl⟩)
        rw [Except.error.inj (hrender.symm.trans hfault)]
    | ok text =>
      constructor
      · rintro ⟨⟩
      · rintro (⟨_, ⟨⟩, _⟩ | ⟨_, _, ⟨⟩, hfault, _⟩)
        cases hrender.symm.trans hfault

theorem result_convert : (pl.convert p path).result =
    match pl.disk.readText path with
    | .error fault => .error (.io path fault)
    | .ok source =>
      match (Options.extract Options.MarkerNames.standard source).result with
      | .error fault => .error (.options path fault)
      | .ok none => .ok (.skip (.noMarker path))
      | .ok (some x) => pl.migrate p path x := by
  unfold convert
  rw [Logged.result_bind, Logged.result_ofExcept]
  cases pl.disk.readText path with
  | error fault => rfl
  | ok source =>
    show (Logged.mapError (MigrationError.options path)
      (Options.extract Options.MarkerNames.standard source) >>= _).result = _
    dsimp only
    rw [Logged.result_bind, Logged.result_mapError]
    cases hextract : (Options.extract Options.MarkerNames.standard source).result with
    | error fault => rfl
    | ok found => cases found <;> rfl

theorem convert_eq_error : (pl.convert p path).result = .error e ↔ pl.ConfigFails p path e := by
  rw [result_convert]
  constructor
  · intro h
    split at h
    · rename_i hread
      obtain rfl := Except.error.inj h
      exact .unreadable hread
    · rename_i source hread
      split at h
      · rename_i hextract
        obtain rfl := Except.error.inj h
        exact .broken hread hextract
      · cases h
      · rename_i x hextract
        rcases migrate_eq_error.mp h with ⟨fault, hoptions, rfl⟩ | ⟨options, fault, hoptions, hrender, rfl⟩
        · exact .unparsed hread hextract hoptions
        · exact .unrendered hread hextract hoptions hrender
  · intro h
    cases h with
    | unreadable hread => rw [hread]
    | broken hread hextract => simp only [hread, hextract]
    | unparsed hread hextract hoptions =>
      simp only [hread, hextract]
      exact migrate_eq_error.mpr (.inl ⟨_, hoptions, rfl⟩)
    | unrendered hread hextract hoptions hrender =>
      simp only [hread, hextract]
      exact migrate_eq_error.mpr (.inr ⟨_, _, hoptions, hrender, rfl⟩)

theorem judge_eq_error :
    (pl.judge claimed p t).result = .error e ↔ pl.CandidateFails claimed p t e := by
  unfold judge CandidateFails
  cases hname : configName? t with
  | none =>
    constructor
    · rintro ⟨⟩
    · rintro ⟨_, ⟨⟩, _⟩
  | some name =>
    simp only [Option.some.injEq, exists_eq_left', configPath]
    cases claimed.any (·.same (pl.root.join ⟨name⟩)) with
    | true => simp
    | false =>
      cases pl.disk.isFile (pl.root.join ⟨name⟩) with
      | false => simp
      | true => simpa using convert_eq_error

theorem projectWrite_eq_error :
    pl.projectWrite p targets = .error e ↔ pl.ProjectFileFails p e := by
  unfold projectWrite
  constructor
  · intro h
    split at h
    · rename_i hsource
      obtain rfl := Except.error.inj h
      exact .sourceless hsource
    · rename_i path hsource
      split at h
      · rename_i hread
        obtain rfl := Except.error.inj h
        exact .unreadable hsource hread
      · rename_i text hread
        split at h
        · rename_i hparse
          obtain rfl := Except.error.inj h
          exact .broken hsource hread hparse
        · cases h
  · intro h
    cases h with
    | sourceless hsource => simp only [hsource]
    | unreadable hsource hread => simp only [hsource, hread]
    | broken hsource hread hparse => simp only [hsource, hread, hparse]

/-! ### One project -/

theorem runsAny_iff {executors : List String} :
    t.runsAny executors = true ↔ ∃ executor ∈ t.executor, executor ∈ executors := by
  unfold Target.runsAny
  cases t.executor <;> simp

theorem blocked_iff : pl.Blocked p ↔ (∃ t ∈ p.targets, pl.isCandidate t = true) ∧
    p.usesAny pl.settings.incompatibleExecutors = true := by
  unfold Blocked isCandidate Project.usesAny
  simp only [decide_eq_true_eq, List.any_eq_true, ← runsAny_iff]

theorem compatible_iff : pl.Compatible p ↔ ¬ pl.Blocked p := by
  rw [blocked_iff, Compatible]
  constructor
  · rintro h ⟨⟨t, ht, hcandidate⟩, hused⟩
    rw [h t ht hcandidate] at hused
    cases hused
  · intro h t ht hcandidate
    by_contra hused
    exact h ⟨⟨t, ht, hcandidate⟩, by simpa using hused⟩

/-- A project that is blocked fails at its first candidate, whatever was decided before and whatever
the disk holds, and nothing is said of its candidates. -/
theorem judgeAll_of_blocked (h : p.usesAny pl.settings.incompatibleExecutors = true)
    (before : List Verdict) {ts : List Target} (hts : ∃ t ∈ ts, pl.isCandidate t = true) :
    pl.judgeAll before p ts = .fail (.moduleFederation p.name) := by
  induction ts with
  | nil =>
    obtain ⟨t, ht, _⟩ := hts
    cases ht
  | cons t ts ih =>
    rw [judgeAll, h]
    cases hcandidate : pl.isCandidate t with
    | true => rfl
    | false =>
      obtain ⟨t', ht', hcandidate'⟩ := hts
      rcases List.mem_cons.mp ht' with rfl | ht'
      · rw [hcandidate] at hcandidate'
        cases hcandidate'
      · exact ih ⟨t', ht', hcandidate'⟩

theorem planProject_of_blocked (h : pl.Blocked p) (g : Progress) :
    pl.planProject g p = .fail (.moduleFederation p.name) := by
  obtain ⟨hcandidate, hused⟩ := blocked_iff.mp h
  rw [planProject, judgeAll_of_blocked hused g.verdicts hcandidate]
  rfl

theorem judgeAll_eq_error {ts : List Target}
    (hfree : ∀ t ∈ ts, pl.isCandidate t = true → p.usesAny pl.settings.incompatibleExecutors = false) :
    (pl.judgeAll before p ts).result = .error e ↔
      ∃ cs t cs' own, (ts.filter pl.isCandidate).map (fun t => (p, t)) = cs ++ (p, t) :: cs' ∧
        pl.Judged before cs own ∧ pl.CandidateFails (claims (before ++ own)) p t e := by
  induction ts generalizing before with
  | nil => simp [judgeAll]
  | cons t ts ih =>
    rw [List.forall_mem_cons] at hfree
    obtain ⟨hfirst, hrest⟩ := hfree
    rw [judgeAll]
    by_cases hcandidate : pl.isCandidate t = true
    · rw [if_pos hcandidate, hfirst hcandidate, if_neg Bool.false_ne_true,
        List.filter_cons_of_pos hcandidate, List.map_cons, Logged.result_bind_eq_error]
      constructor
      · rintro (hfails | ⟨outcome, hjudge, h⟩)
        · refine ⟨[], t, _, [], rfl, .nil before, ?_⟩
          rw [List.append_nil]
          exact judge_eq_error.mp hfails
        · rw [Logged.result_bind_eq_error] at h
          rcases h with hsaid | ⟨_, _, h⟩
          · cases hsaid
          · obtain ⟨cs, t', cs', own, hcs, hjudged, hfails⟩ := (ih hrest).mp h
            refine ⟨(p, t) :: cs, t', cs', _ :: own, by rw [hcs]; rfl, .cons hjudge hjudged, ?_⟩
            rwa [List.append_cons]
      · rintro ⟨cs, t', cs', own, hcs, hjudged, hfails⟩
        cases hjudged with
        | nil =>
          obtain ⟨rfl, rfl⟩ : t = t' ∧ _ = cs' := by simpa using hcs
          rw [List.append_nil] at hfails
          exact .inl (judge_eq_error.mpr hfails)
        | @cons _ vs _ t₁ outcome cs first rest =>
          rw [List.cons_append] at hcs
          obtain ⟨hhead, htail⟩ := List.cons.inj hcs
          obtain ⟨rfl, rfl⟩ := Prod.mk.inj hhead
          refine .inr ⟨outcome, first, Logged.result_bind_eq_error.mpr (.inr ⟨(), rfl, ?_⟩)⟩
          refine (ih hrest).mpr ⟨cs, t', cs', vs, htail, rest, ?_⟩
          rwa [List.append_cons] at hfails
    · rw [if_neg hcandidate, List.filter_cons_of_neg hcandidate]
      exact ih hrest

theorem planProject_eq_error :
    (pl.planProject g p).result = .error e ↔ pl.ProjectFails g.verdicts p e := by
  by_cases hblocked : pl.Blocked p
  · rw [planProject_of_blocked hblocked]
    constructor
    · rintro ⟨⟩
      exact .blocked hblocked
    · intro h
      cases h with
      | blocked => rfl
      | candidate hfree => exact absurd hblocked hfree
      | projectFile hfree => exact absurd hblocked hfree
  · have hcompatible := compatible_iff.mpr hblocked
    unfold planProject
    rw [Logged.result_bind_eq_error, judgeAll_eq_error hcompatible]
    constructor
    · rintro (⟨cs, t, cs', own, hcs, hjudged, hfails⟩ | ⟨verdicts, hverdicts, h⟩)
      · exact .candidate hblocked hcs hjudged hfails
      · obtain ⟨_, own, rfl, hown⟩ := judgeAll_eq_ok.mp hverdicts
        rw [List.drop_left] at h
        dsimp only at h
        split at h
        · cases h
        · rename_i hsome
          rcases Logged.result_bind_eq_error.mp h with h | ⟨_, _, h⟩
          · exact .projectFile hblocked hown hsome (projectWrite_eq_error.mp h)
          · cases h
    · intro h
      cases h with
      | blocked h => exact absurd h hblocked
      | candidate _ hcs hjudged hfails => exact .inl ⟨_, _, _, _, hcs, hjudged, hfails⟩
      | @projectFile own _ _ hown hsome hfails =>
        refine .inr ⟨_, judgeAll_eq_ok.mpr ⟨hcompatible, own, rfl, hown⟩, ?_⟩
        rw [List.drop_left]
        dsimp only
        split
        · rename_i hnone
          exact absurd hnone hsome
        · exact Logged.result_bind_eq_error.mpr (.inl (projectWrite_eq_error.mpr hfails))

/-! ### All projects -/

theorem failsFrom_nil : ¬ pl.FailsFrom before [] e := by
  rintro ⟨done, p, rest, _, _, h, _⟩
  exact List.append_ne_nil_of_right_ne_nil done (List.cons_ne_nil p rest) h.symm

/-- The first failure is that of the first project, or it comes after the verdicts on that one. -/
theorem failsFrom_cons : pl.FailsFrom g.verdicts (p :: ps) e ↔
    pl.ProjectFails g.verdicts p e ∨
      ∃ g', (pl.planProject g p).result = .ok g' ∧ pl.FailsFrom g'.verdicts ps e := by
  constructor
  · rintro ⟨done, q, rest, vs, ws, hps, hfree, hrounds, hfails⟩
    cases hrounds with
    | nil =>
      obtain ⟨rfl, _⟩ := List.cons.inj hps
      rw [List.append_nil] at hfails
      exact .inl hfails
    | idle judged none rounds =>
      obtain ⟨rfl, htail⟩ := List.cons.inj hps
      rw [List.forall_mem_cons] at hfree
      rw [← List.append_assoc] at hfails
      exact .inr ⟨_, planProject_eq_ok.mpr ⟨compatible_iff.mpr hfree.1, _, judged, .inl ⟨none, rfl⟩⟩,
        _, q, rest, _, _, htail, hfree.2, rounds, hfails⟩
    | writing judged some write rounds =>
      obtain ⟨rfl, htail⟩ := List.cons.inj hps
      rw [List.forall_mem_cons] at hfree
      rw [← List.append_assoc] at hfails
      exact .inr ⟨_, planProject_eq_ok.mpr
        ⟨compatible_iff.mpr hfree.1, _, judged, .inr ⟨some, _, write, rfl⟩⟩,
        _, q, rest, _, _, htail, hfree.2, rounds, hfails⟩
  · rintro (hfails | ⟨g', hproject, done, q, rest, vs, ws, rfl, hfree, hrounds, hfails⟩)
    · refine ⟨[], p, ps, [], [], rfl, by simp, .nil _, ?_⟩
      rwa [List.append_nil]
    · obtain ⟨hcompatible, own, hown, hcases⟩ := planProject_eq_ok.mp hproject
      have hfree : ∀ r ∈ p :: done, ¬ pl.Blocked r :=
        List.forall_mem_cons.mpr ⟨compatible_iff.mp hcompatible, hfree⟩
      rcases hcases with ⟨hnone, rfl⟩ | ⟨hsome, w, hwrite, rfl⟩
      · rw [List.append_assoc] at hfails
        exact ⟨p :: done, q, rest, _, _, rfl, hfree, .idle hown hnone hrounds, hfails⟩
      · rw [List.append_assoc] at hfails
        exact ⟨p :: done, q, rest, _, _, rfl, hfree, .writing hown hsome hwrite hrounds, hfails⟩

theorem planProjects_eq_error : (pl.planProjects g ps).result = .error e ↔
    pl.FailsFrom g.verdicts (ps.filter pl.isSelected) e := by
  induction ps generalizing g with
  | nil => exact iff_of_false (by rintro ⟨⟩) failsFrom_nil
  | cons p ps ih =>
    rw [planProjects]
    by_cases hselected : pl.isSelected p = true
    · rw [if_pos hselected, List.filter_cons_of_pos hselected, Logged.result_bind_eq_error,
        planProject_eq_error, failsFrom_cons]
      simp only [ih]
    · rw [if_neg hselected, List.filter_cons_of_neg hselected]
      exact ih

/-! ### The end of a run -/

theorem Judged.unique (h : pl.Judged before cs vs) (h' : pl.Judged before cs vs') : vs = vs' := by
  induction h generalizing vs' with
  | nil before =>
    cases h'
    rfl
  | cons first rest ih =>
    cases h' with
    | cons first' rest' =>
      obtain rfl := Except.ok.inj (first.symm.trans first')
      rw [ih rest']

theorem migrated?_eq_none {v : Verdict} :
    v.migrated? = none ↔ ∃ reason, v.outcome = .skip reason := by
  obtain ⟨project, target, outcome⟩ := v
  cases outcome with
  | migrate => exact iff_of_false (by rintro ⟨⟩) (by rintro ⟨_, ⟨⟩⟩)
  | skip reason => exact iff_of_true rfl ⟨reason, rfl⟩

/-- No failure says that there is nothing to migrate: only a run that has come to its end does. -/
theorem ne_nothing_of_projectFails (h : pl.ProjectFails before p e) : e ≠ .nothingToMigrate := by
  rintro rfl
  cases h with
  | candidate _ _ _ fails =>
    obtain ⟨_, _, _, _, fails⟩ := fails
    cases fails
  | projectFile _ _ _ fails => cases fails

/-- How a run over projects ends. -/
structure Ends (pl : Planner) (ps : List Project) (result : Except MigrationError Plan) : Prop where
  /-- One project that is blocked keeps all from being migrated. -/
  blocked : ∀ p ∈ ps, pl.Blocked p → ∀ plan, result ≠ .ok plan
  /-- A project that is blocked fails without a word, whatever the disk holds. -/
  unread : ∀ p ∈ ps, pl.Blocked p → ∀ disk g,
    ({ pl with disk } : Planner).planProject g p = .fail (.moduleFederation p.name)
  failed : ∀ e, e ≠ .nothingToMigrate → (result = .error e ↔ pl.FirstFailure ps e)
  nothing : result = .error .nothingToMigrate ↔ (∀ e, ¬ pl.FirstFailure ps e) ∧
    ∃ vs, pl.Judged [] (ps.flatMap (candidatesOf pl.settings)) vs ∧
      ∀ v ∈ vs, ∃ reason, v.outcome = .skip reason

/-- A run fails as its projects do, and at its end if there is nothing to migrate. -/
theorem run_eq_error : (pl.run ps).result = .error e ↔
    pl.FirstFailure (ps.filter pl.isSelected) e ∨
      e = .nothingToMigrate ∧ ∃ vs ws, (pl.planProjects ⟨[], []⟩ ps).result = .ok ⟨vs, ws⟩ ∧
        ∀ v ∈ vs, ∃ reason, v.outcome = .skip reason := by
  rw [run, Logged.result_bind_eq_error, planProjects_eq_error]
  refine or_congr Iff.rfl ?_
  constructor
  · rintro ⟨⟨vs, ws⟩, hg, h⟩
    dsimp only at h
    split at h
    · rename_i hnone
      rw [List.isEmpty_iff] at hnone
      refine ⟨(Except.error.inj h).symm, vs, ws, hg, fun v hv => ?_⟩
      exact migrated?_eq_none.mp (List.filterMap_eq_nil_iff.mp hnone v hv)
    · cases h
  · rintro ⟨rfl, vs, ws, hg, hskip⟩
    have hnone : vs.filterMap Verdict.migrated? = [] :=
      List.filterMap_eq_nil_iff.mpr fun v hv => migrated?_eq_none.mpr (hskip v hv)
    refine ⟨_, hg, ?_⟩
    show (if (vs.filterMap Verdict.migrated?).isEmpty then _ else _ : Logged _ _).result = _
    rw [if_pos (List.isEmpty_iff.mpr hnone)]
    rfl

theorem ends_run : pl.Ends (ps.filter pl.isSelected) (pl.run ps).result := by
  have hfailure {e : MigrationError} (h : pl.FirstFailure (ps.filter pl.isSelected) e) :
      e ≠ .nothingToMigrate := by
    obtain ⟨_, _, _, _, _, _, _, _, hfails⟩ := h
    exact ne_nothing_of_projectFails hfails
  constructor
  · intro p hp hblocked plan hplan
    exact compatible_iff.mp ((run_eq_ok hplan).1 p hp) hblocked
  · intro p _ hblocked disk g
    have hblocked : ({ pl with disk } : Planner).Blocked p := hblocked
    exact planProject_of_blocked hblocked g
  · intro e he
    rw [run_eq_error]
    exact or_iff_left fun h => he h.1
  · rw [run_eq_error]
    constructor
    · rintro (h | ⟨_, vs, ws, hg, hskip⟩)
      · exact absurd rfl (hfailure h)
      · constructor
        · intro e h
          cases hg.symm.trans (planProjects_eq_error.mpr h)
        · obtain ⟨_, _, _, hg', hrounds⟩ := planProjects_eq_ok.mp hg
          obtain ⟨rfl, _⟩ := Progress.mk.inj hg'
          exact ⟨_, hrounds.judged, hskip⟩
    · rintro ⟨hfree, vs, hjudged, hskip⟩
      cases hg : (pl.planProjects ⟨[], []⟩ ps).result with
      | error e => exact absurd (planProjects_eq_error.mp hg) (hfree e)
      | ok g =>
        obtain ⟨_, vs', ws, rfl, hrounds⟩ := planProjects_eq_ok.mp hg
        obtain rfl := hjudged.unique hrounds.judged
        exact .inr ⟨rfl, _, _, rfl, hskip⟩

end Planner

/-- A plan ends with the first failure among the projects that are looked at, one that is blocked
fails before its configs are read, and there is nothing to migrate just when nothing fails and every
candidate is passed over. -/
theorem plan_ends {d : Disk} {w : Workspace} {settings : MigrateSettings} {request : Request}
    {renderer : Webpack.Renderer}
    (hrenderer : Webpack.Renderer.make d (settings.templateDir.map w.root.join) = .ok renderer) :
    (⟨d, w.root, settings, request, renderer⟩ : Planner).Ends
      (w.projects.filter fun p => ∀ name ∈ request.project, p.name = name)
      (Migration.plan d w settings request).result := by
  have hresult : (Migration.plan d w settings request).result =
      ((⟨d, w.root, settings, request, renderer⟩ : Planner).run w.projects).result := by
    unfold Migration.plan
    rw [hrenderer]
    rfl
  have hselected : w.projects.filter (⟨d, w.root, settings, request, renderer⟩ : Planner).isSelected =
      w.projects.filter fun p => ∀ name ∈ request.project, p.name = name :=
    List.filter_congr fun p _ => isSelected_eq p
  rw [hresult, ← hselected]
  exact Planner.ends_run

def passedOver : Project :=
  ⟨"a", "a", none, [⟨"x", none, some "w", [], []⟩], by simp⟩

/-- The second target runs an executor that is in the way of the first. -/
def inTheWay : Project :=
  ⟨"b", "b", none, [⟨"x", none, some "w", [], []⟩, ⟨"y", none, some "m", [], []⟩], by simp⟩

def blockingSettings : MigrateSettings where
  webpackExecutor := "w"
  incompatibleExecutors := ["m"]
  extraPathKeys := []
  templateDir := none

/-- The candidate of the first project names no config, the second project is blocked. -/
theorem plan_ends_inTheWay :
    Webpack.Renderer.make ⟨.directory [], []⟩ none = .ok .standard ∧
      (⟨⟨.directory [], []⟩, ⟨"ws"⟩, blockingSettings, ⟨none, true⟩, .standard⟩ : Planner).Ends
        [passedOver, inTheWay]
        (Migration.plan ⟨.directory [], []⟩ ⟨⟨"ws"⟩, [passedOver, inTheWay]⟩ blockingSettings
          ⟨none, true⟩).result ∧
      (Migration.plan ⟨.directory [], []⟩ ⟨⟨"ws"⟩, [passedOver, inTheWay]⟩ blockingSettings
        ⟨none, true⟩).result = .error (.moduleFederation "b") := by
  let pl : Planner := ⟨⟨.directory [], []⟩, ⟨"ws"⟩, blockingSettings, ⟨none, true⟩, .standard⟩
  have hrenderer : Webpack.Renderer.make ⟨.directory [], []⟩ none = .ok .standard :=
    Webpack.Renderer.make_none _
  have hends : pl.Ends [passedOver, inTheWay] _ :=
    @plan_ends ⟨.directory [], []⟩ ⟨⟨"ws"⟩, [passedOver, inTheWay]⟩ blockingSettings ⟨none, true⟩
      .standard hrenderer
  refine ⟨hrenderer, hends, (hends.failed _ (by rintro ⟨⟩)).mpr ?_⟩
  have hfree : ¬ pl.Blocked passedOver := by
    rw [← Planner.compatible_iff]
    rintro t ht _
    rfl
  have hblocked : pl.Blocked inTheWay :=
    Planner.blocked_iff.mpr ⟨⟨_, List.mem_cons_self, rfl⟩, rfl⟩
  have hrounds : pl.Rounds [] [passedOver] _ [] :=
    .idle (.cons rfl (.nil _)) rfl (.nil _)
  exact ⟨[passedOver], inTheWay, [], _, _, rfl, by simpa using hfree, hrounds, .blocked hblocked⟩

end Workyard.Migration
