import Workyard.Proofs.Migration.Operation
import Workyard.Proofs.Migration.Temporary

/-!
# Staging

Staging changes the disk at the temporary places only. When it passes, every staged file
remembers what its place held before; when it fails, the temporary places are empty again.
-/

namespace Workyard.Migration

set_option autoImplicit false

open Disk

/-- The temporary places of a plan are none that it names. -/
structure Plan.StagesApart (plan : Plan) (d : Disk) : Prop where
  sourcesApart : ∀ w ∈ plan.writes, ∀ r ∈ plan.renames,
    d.place (temporaryOf w.path) ≠ d.place r.source
  targetsApart : ∀ w ∈ plan.writes, ∀ r ∈ plan.renames,
    d.place (temporaryOf w.path) ≠ d.place r.target
  writesApart : ∀ w ∈ plan.writes, ∀ w' ∈ plan.writes,
    d.place (temporaryOf w.path) ≠ d.place w'.path

/-- What a plan asks of the disk that it is applied to. -/
structure Plan.Orderly (plan : Plan) (d : Disk) : Prop extends plan.StagesApart d where
  /-- What moves aside is a file, or is not there. -/
  sources : ∀ r ∈ plan.renames, d.view (d.place r.source) ≠ some .directory
  /-- No file is written where another one moves to. -/
  targets : ∀ r ∈ plan.renames, ∀ w ∈ plan.writes, d.place r.target ≠ d.place w.path
  /-- The directories of the files that are written are there. -/
  parents : ∀ w ∈ plan.writes, d.Reaches w.path
  /-- The temporary places are empty. -/
  temporaries : ∀ w ∈ plan.writes, d.view (d.place (temporaryOf w.path)) = none

/-- What a staged file remembers of its place. -/
def Staged.Remembers (plan : Plan) (d : Disk) (f : Staged) : Prop :=
  if plan.movesAside f.path then f.previous = none
  else d.view (d.place f.path) = f.previous.map fun t => .file (.text t)

/-- The files that were staged for writes. -/
structure StagedFor (plan : Plan) (d : Disk) (fs : List Staged) (ws : List FileWrite) : Prop where
  paths : fs.map (·.path) = ws.map (·.path)
  temporaries : ∀ f ∈ fs, f.temporary = temporaryOf f.path
  remembers : ∀ f ∈ fs, f.Remembers plan d

/-- The temporary places of writes. -/
def temporaryPlaces (d : Disk) (ws : List FileWrite) : List Location :=
  ws.map fun w => d.place (temporaryOf w.path)

/-- The places of the files that are written. -/
def Plan.writePlaces (plan : Plan) (d : Disk) : List Location :=
  plan.writes.map fun w => d.place w.path

/-- The locations that staging and committing files change. -/
def Plan.Touches (plan : Plan) (d : Disk) (l : Location) : Prop :=
  l ∈ temporaryPlaces d plan.writes ∨ l ∈ plan.writePlaces d

theorem mem_temporaryPlaces {d : Disk} {ws : List FileWrite} {l : Location} :
    l ∈ temporaryPlaces d ws ↔ ∃ w ∈ ws, d.place (temporaryOf w.path) = l :=
  List.mem_map

theorem mem_writePlaces {plan : Plan} {d : Disk} {l : Location} :
    l ∈ plan.writePlaces d ↔ ∃ w ∈ plan.writes, d.place w.path = l :=
  List.mem_map

variable {plan : Plan} {d : Disk} {s s₁ t : Session} {p : FilePath} {n : Nat}

theorem Plan.StagesApart.not_touches_target (hs : plan.StagesApart d) {r : Rename}
    (hr : r ∈ plan.renames) (hwrites : ∀ w ∈ plan.writes, d.place r.target ≠ d.place w.path) :
    ¬ plan.Touches d (d.place r.target) := by
  rintro (hl | hl)
  · obtain ⟨w, hw, heq⟩ := mem_temporaryPlaces.mp hl
    exact hs.targetsApart w hw r hr heq
  · obtain ⟨w, hw, heq⟩ := mem_writePlaces.mp hl
    exact hwrites w hw heq.symm

/-- The parent of a path is there if the file that is staged for it has a place. -/
theorem run_makeParent (h : s.disk.Reaches (temporaryOf p)) :
    (makeParent p).run s = (.ok (), s) := by
  unfold makeParent
  cases hq : p.parent? with
  | none => rfl
  | some q =>
    have hp : p.text ≠ "" := by
      intro hp
      obtain rfl : p = ⟨""⟩ := congrArg FilePath.mk hp
      simp [show (⟨""⟩ : FilePath).parent? = none from rfl] at hq
    have hreaches : s.disk.Reaches p := (reaches_temporaryOf_iff hp).mp h
    apply Work.run_mapError_of_ok
    simp [Work.makeDirectories, makeDirectories_parent hreaches hq]

theorem run_previousOf_aside (h : plan.movesAside p = true) (s : Session) :
    (previousOf plan p).run s = (.ok none, s) := by
  simp [previousOf, h]

theorem run_readText_of_succeeds (h : (Operation.read p).Succeeds s s₁) :
    (Work.readText p).run s = (s.disk.readText p, s.next.2) ∧ s₁.disk = s.disk ∧
      (s.disk.readText p = .error .notFound ∨ ∃ text, s.disk.readText p = .ok text) := by
  obtain ⟨hnext, hperform, _⟩ := h
  obtain ⟨d, ahead, lines⟩ := s
  have hrun : (Work.readText p).run ⟨d, ahead, lines⟩ =
      (d.readText p, (Session.next ⟨d, ahead, lines⟩).2) := by
    cases ahead with
    | nil => rfl
    | cons m ms =>
      obtain rfl : m = none := hnext
      rfl
  refine ⟨hrun, ?_⟩
  simp only [Operation.perform] at hperform
  cases hr : d.readText p with
  | ok text => simp_all
  | error f => cases f <;> simp_all

theorem run_previousOf_of_succeeds (hm : plan.movesAside p = false)
    (h : (Operation.read p).Succeeds s s₁) :
    (previousOf plan p).run s = (.ok (s.disk.readText p).toOption, s.next.2) ∧
      s₁.disk = s.disk := by
  obtain ⟨hrun, hdisk, hr⟩ := run_readText_of_succeeds h
  refine ⟨?_, hdisk⟩
  simp only [previousOf, hm, Bool.false_eq_true, if_false]
  rcases hr with hr | ⟨text, hr⟩ <;> rw [hr] at hrun ⊢
  · have hmap : (some <$> Work.readText p).run s = (.error .notFound, s.next.2) := by
      rw [Work.run_map, hrun]
    rw [Work.run_rescue_of_error hmap]
    rfl
  · apply Work.run_rescue_of_ok
    rw [Work.run_map, hrun]
    rfl

theorem run_readText_of_fails (h : (Operation.read p).Fails s) :
    ∃ f, f ≠ .notFound ∧ (Work.readText p).run s = (.error f, s.next.2) := by
  obtain ⟨d, ahead, lines⟩ := s
  have hnone : (∃ f, (Operation.read p).perform d = .error f) →
      ∃ f, f ≠ .notFound ∧ d.readText p = .error f := by
    rintro ⟨f, hf⟩
    simp only [Operation.perform] at hf
    cases hr : d.readText p with
    | ok text => simp [hr] at hf
    | error g =>
      refine ⟨g, ?_, rfl⟩
      rintro rfl
      simp [hr] at hf
  rcases ahead with _ | ⟨_ | m, ms⟩
  · obtain ⟨f, hne, hf⟩ := hnone h
    exact ⟨f, hne, by rw [← hf]; rfl⟩
  · obtain ⟨f, hne, hf⟩ := hnone h
    exact ⟨f, hne, by rw [← hf]; rfl⟩
  · exact ⟨m.fault, h rfl, rfl⟩

theorem run_previousOf_of_fails (hm : plan.movesAside p = false)
    (h : (Operation.read p).Fails s) :
    ∃ e, (previousOf plan p).run s = (.error e, s.next.2) := by
  obtain ⟨f, hne, hrun⟩ := run_readText_of_fails h
  have hmap : (some <$> Work.readText p).run s = (.error f, s.next.2) := by
    rw [Work.run_map, hrun]
  refine ⟨.io p f, ?_⟩
  simp only [previousOf, hm, Bool.false_eq_true, if_false]
  rw [Work.run_rescue_of_error hmap, if_neg hne]
  rfl

theorem run_writeStaged_of_succeeds {text : String}
    (h : (Operation.write p text).Succeeds s s₁) :
    ∃ t, (writeStaged p text).run s = (.ok (), t) ∧ Alike t s₁ := by
  obtain ⟨hnext, hperform, hahead⟩ := h
  obtain ⟨d, ahead, lines⟩ := s
  have hwrite : d.writeFile p (.text text) = .ok s₁.disk := hperform
  rcases ahead with _ | ⟨_ | m, ms⟩
  · refine ⟨⟨s₁.disk, [], lines⟩, ?_, rfl, hahead.symm⟩
    apply Work.run_rescue_of_ok
    simp [Work.writeText, Session.next, hwrite]
  · refine ⟨⟨s₁.disk, ms, lines⟩, ?_, rfl, hahead.symm⟩
    apply Work.run_rescue_of_ok
    simp [Work.writeText, Session.next, hwrite]
  · simp [Session.next] at hnext

theorem leave_eq (hr : d.Reaches p) (hp : d.view (d.place p) ≠ some .directory) (m : Mishap) :
    (Work.leave d p m).here = d.here ∧ ∃ x, x ≠ some .directory ∧
      (Work.leave d p m).view = d.view.set (d.place p) x := by
  unfold Work.leave
  cases m.written with
  | none => exact ⟨rfl, _, hp, View.set_eq_self.symm⟩
  | some text =>
    have hwrite := writeFile_of_reaches hr hp (.text text)
    obtain ⟨hhere, hview⟩ := view_writeFile hwrite
    simp only [hwrite, Except.toOption, Option.getD_some]
    exact ⟨hhere, _, by simp, hview⟩

theorem run_writeText_of_fails {text : String} (hr : s.disk.Reaches p)
    (hp : s.disk.view (s.disk.place p) ≠ some .directory) (h : (Operation.write p text).Fails s) :
    ∃ f t, (Work.writeText p text).run s = (.error f, t) ∧ t.disk.here = s.disk.here ∧
      ∃ x, x ≠ some .directory ∧ t.disk.view = s.disk.view.set (s.disk.place p) x := by
  obtain ⟨d, ahead, lines⟩ := s
  have hok : ¬ ∃ f, (Operation.write p text).perform d = .error f := by
    rintro ⟨f, hf⟩
    have hwrite := writeFile_of_reaches hr hp (.text text)
    simp [Operation.perform, hwrite] at hf
  rcases ahead with _ | ⟨_ | m, ms⟩
  · exact absurd h hok
  · exact absurd h hok
  · exact ⟨m.fault, _, rfl, leave_eq hr hp m⟩

/-- A staged file whose writing fails is taken away, however much of it was written. -/
theorem run_writeStaged_of_fails {text : String} (hr : s.disk.Reaches p)
    (hp : s.disk.view (s.disk.place p) ≠ some .directory) (h : (Operation.write p text).Fails s) :
    ∃ e t, (writeStaged p text).run s = (.error e, t) ∧ t.disk.here = s.disk.here ∧
      t.disk.view = s.disk.view.set (s.disk.place p) none := by
  obtain ⟨f, t, hrun, hhere, x, hx, hview⟩ := run_writeText_of_fails hr hp h
  have hdirs : SameDirectories s.disk t.disk := .of_set hhere hview hp hx
  have hplace := hdirs.place p
  have hwithout := view_without (hdirs.reaches hr) (hplace ▸ hdirs.view_ne hp)
  obtain ⟨g, hmend⟩ := @Work.run_mend MigrationError (·.removeFile p) t
  refine ⟨.io p f, { t with disk := t.disk.without p }, ?_, hwithout.1.trans hhere, ?_⟩
  · unfold writeStaged
    rw [Work.run_rescue_of_error hrun, Work.run_bind_of_ok hmend]
    rfl
  · rw [hwithout.2, hview, ← hplace, View.set_set]

/-- What is read from a file, or that there is none, is what stands there. -/
theorem view_of_readText (hr : d.Reaches p)
    (h : d.readText p = .error .notFound ∨ ∃ text, d.readText p = .ok text) :
    d.view (d.place p) = (d.readText p).toOption.map fun t => .file (.text t) := by
  rw [readText_of_reaches hr] at h ⊢
  cases hv : d.view (d.place p) with
  | none => rfl
  | some n =>
    cases n with
    | directory => simp [hv] at h
    | file c =>
      cases c with
      | text t => rfl
      | raw bytes => simp [hv] at h

variable {w : FileWrite} {ws done : List FileWrite} {fs : List Staged}

theorem next_disk (s : Session) : s.next.2.disk = s.disk := by
  unfold Session.next
  split <;> rfl

theorem not_mem_temporaryPlaces (ho : plan.Orderly d) (hw : w ∈ plan.writes)
    (hd : ∀ w ∈ done, w ∈ plan.writes) : d.place w.path ∉ temporaryPlaces d done := by
  intro hmem
  obtain ⟨w', hw', hplace⟩ := List.mem_map.mp hmem
  exact ho.writesApart w' (hd w' hw') w hw hplace

/-- A file that is read rightly tells what its place held at first. -/
theorem remembers_of_succeeds (ho : plan.Orderly d) (hw : w ∈ plan.writes)
    (hd : ∀ w ∈ done, w ∈ plan.writes) (ha : AgreesOff (temporaryPlaces d done) d s.disk)
    (hm : plan.movesAside w.path = false) (h : (Operation.read w.path).Succeeds s s₁) :
    (⟨w.path, temporaryOf w.path, (s.disk.readText w.path).toOption⟩ : Staged).Remembers plan d := by
  have hr := ha.directories.reaches (ho.parents w hw)
  have hview := view_of_readText hr (run_readText_of_succeeds h).2.2
  rw [← ha.directories.place, ha.view _ (not_mem_temporaryPlaces ho hw hd)] at hview
  simp only [Staged.Remembers, hm, Bool.false_eq_true, if_false]
  exact hview

theorem run_previousOf_of_passes (ho : plan.Orderly d) (hw : w ∈ plan.writes)
    (hd : ∀ w ∈ done, w ∈ plan.writes) (ha : AgreesOff (temporaryPlaces d done) d s.disk)
    (hp : Passes (plan.stagingOf w) s s₁) :
    ∃ previous t, (previousOf plan w.path).run s = (.ok previous, t) ∧ t.disk = s.disk ∧
      (⟨w.path, temporaryOf w.path, previous⟩ : Staged).Remembers plan d ∧
      (Operation.write (temporaryOf w.path) w.content).Succeeds t s₁ := by
  unfold Plan.stagingOf at hp
  cases hm : plan.movesAside w.path with
  | true =>
    simp only [hm, if_true, List.nil_append] at hp
    obtain _ | ⟨hwrite, _ | _⟩ := hp
    exact ⟨none, s, run_previousOf_aside hm s, rfl, by simp [Staged.Remembers, hm], hwrite⟩
  | false =>
    simp only [hm, Bool.false_eq_true, if_false, List.cons_append, List.nil_append] at hp
    obtain _ | ⟨hread, _ | ⟨hwrite, _ | _⟩⟩ := hp
    obtain ⟨hrun, hdisk⟩ := run_previousOf_of_succeeds hm hread
    exact ⟨_, s.next.2, hrun, next_disk s, remembers_of_succeeds ho hw hd ha hm hread,
      hwrite.alike ⟨(next_disk s).trans hdisk.symm, hread.2.2.symm⟩⟩

theorem run_previousOf_of_failsAt (h : FailsAt (plan.stagingOf w) n s) :
    (∃ e t, (previousOf plan w.path).run s = (.error e, t) ∧ t.disk = s.disk) ∨
      ∃ previous t, (previousOf plan w.path).run s = (.ok previous, t) ∧ t.disk = s.disk ∧
        (Operation.write (temporaryOf w.path) w.content).Fails t := by
  unfold Plan.stagingOf at h
  cases hm : plan.movesAside w.path with
  | true =>
    simp only [hm, if_true, List.nil_append] at h
    obtain hwrite | ⟨_, h⟩ := h
    · exact .inr ⟨none, s, run_previousOf_aside hm s, rfl, hwrite⟩
    · nomatch h
  | false =>
    simp only [hm, Bool.false_eq_true, if_false, List.cons_append, List.nil_append] at h
    obtain hread | ⟨hread, hwrite | ⟨_, h⟩⟩ := h
    · obtain ⟨e, hrun⟩ := run_previousOf_of_fails hm hread
      exact .inl ⟨e, s.next.2, hrun, next_disk s⟩
    · obtain ⟨hrun, hdisk⟩ := run_previousOf_of_succeeds hm hread
      exact .inr ⟨_, s.next.2, hrun, next_disk s,
        hwrite.alike ⟨(next_disk s).trans hdisk.symm, hread.2.2.symm⟩⟩
    · nomatch h

/-- A file that cannot be staged leaves its temporary place empty, and all else as it was. -/
theorem run_stage_of_failsAt (ho : plan.Orderly d) (hw : w ∈ plan.writes)
    (ha : AgreesOff (temporaryPlaces d done) d s.disk) (h : FailsAt (plan.stagingOf w) n s) :
    ∃ e t, (stage plan w).run s = (.error e, t) ∧ t.disk.here = s.disk.here ∧
      (t.disk.view = s.disk.view ∨
        t.disk.view = s.disk.view.set (d.place (temporaryOf w.path)) none) := by
  rcases run_previousOf_of_failsAt h with ⟨e, t, hprev, hdisk⟩ | ⟨previous, t, hprev, hdisk, hwrite⟩
  · refine ⟨e, t, ?_, by rw [hdisk], .inl (by rw [hdisk])⟩
    unfold stage
    rw [Work.run_bind_of_error hprev]
  · rw [← hdisk] at ha ⊢
    have hr := ha.directories.reaches (reaches_temporaryOf (ho.parents w hw))
    have hplace := ha.directories.place (temporaryOf w.path)
    have hnone : d.view (d.place (temporaryOf w.path)) ≠ some .directory := by
      simp [ho.temporaries w hw]
    obtain ⟨e, t', hrun, hhere, hview⟩ :=
      run_writeStaged_of_fails hr (hplace ▸ ha.directories.view_ne hnone) hwrite
    refine ⟨e, t', ?_, hhere, .inr (hplace ▸ hview)⟩
    unfold stage
    rw [Work.run_bind_of_ok hprev, Work.run_bind_of_ok (run_makeParent (reaches_temporaryOf hr)),
      Work.run_bind_of_error hrun]

/-- The disk without the staged files. -/
def cleared (d : Disk) (fs : List Staged) : Disk :=
  fs.foldl (fun d f => d.without f.temporary) d

theorem run_discard {ε : Type} (fs : List Staged) (s : Session) :
    (discard fs : Work ε Unit).run s = (.ok (), { s with disk := cleared s.disk fs }) := by
  induction fs generalizing s with
  | nil => rfl
  | cons f fs ih =>
    obtain ⟨g, hmend⟩ := @Work.run_mend ε (·.removeFile f.temporary) s
    unfold discard
    rw [Work.run_bind_of_ok hmend, ih]
    rfl

theorem view_cleared {d₀ : Disk} (hdirs : SameDirectories d₀ d)
    (hr : ∀ f ∈ fs, d₀.Reaches f.temporary)
    (hf : ∀ f ∈ fs, d₀.view (d₀.place f.temporary) ≠ some .directory) :
    (cleared d fs).here = d.here ∧ ∀ l, (cleared d fs).view l =
      if l ∈ fs.map (fun f => d₀.place f.temporary) then none else d.view l := by
  induction fs generalizing d with
  | nil => exact ⟨rfl, fun l => by simp [cleared]⟩
  | cons f fs ih =>
    have hplace := hdirs.place f.temporary
    have hdir := hdirs.view_ne (hf f List.mem_cons_self)
    obtain ⟨hhere, hview⟩ :=
      view_without (hdirs.reaches (hr f List.mem_cons_self)) (hplace ▸ hdir)
    have hdirs' : SameDirectories d₀ (d.without f.temporary) :=
      hdirs.trans (.of_set hhere hview (hplace ▸ hdir) (by simp))
    obtain ⟨hhere', hview'⟩ := ih hdirs' (fun f hf => hr f (List.mem_cons_of_mem _ hf))
      fun f' hf' => hf f' (List.mem_cons_of_mem _ hf')
    refine ⟨hhere'.trans hhere, fun l => (hview' l).trans ?_⟩
    rw [hview, ← hplace, View.set_apply]
    simp only [List.map_cons, List.mem_cons]
    grind

namespace StagedFor

theorem nil (plan : Plan) (d : Disk) : StagedFor plan d [] [] :=
  ⟨rfl, by simp, by simp⟩

theorem concat (h : StagedFor plan d fs done) {previous : Option String}
    (hrem : (⟨w.path, temporaryOf w.path, previous⟩ : Staged).Remembers plan d) :
    StagedFor plan d (fs ++ [⟨w.path, temporaryOf w.path, previous⟩]) (done ++ [w]) := by
  refine ⟨by simp [h.paths], fun f hf => ?_, fun f hf => ?_⟩
  · rcases List.mem_append.mp hf with hf | hf
    · exact h.temporaries f hf
    · obtain rfl := List.mem_singleton.mp hf
      rfl
  · rcases List.mem_append.mp hf with hf | hf
    · exact h.remembers f hf
    · obtain rfl := List.mem_singleton.mp hf
      exact hrem

theorem exists_write (h : StagedFor plan d fs done) {f : Staged} (hf : f ∈ fs) :
    ∃ w ∈ done, f.path = w.path ∧ f.temporary = temporaryOf w.path := by
  have hpath : f.path ∈ done.map (·.path) := h.paths ▸ List.mem_map_of_mem hf
  obtain ⟨w, hw, hpath⟩ := List.mem_map.mp hpath
  exact ⟨w, hw, hpath.symm, hpath ▸ h.temporaries f hf⟩

theorem map_temporary (h : StagedFor plan d fs done) :
    fs.map (fun f => d.place f.temporary) = temporaryPlaces d done := by
  have hfs : fs.map (fun f => d.place f.temporary) =
      (fs.map (·.path)).map fun p => d.place (temporaryOf p) := by
    rw [List.map_map]
    exact List.map_congr_left fun f hf => by simp [h.temporaries f hf]
  rw [hfs, h.paths, List.map_map]
  rfl

/-- Without the staged files there is nothing at their temporary places. -/
theorem view_cleared (ho : plan.Orderly d) (hd : ∀ w ∈ done, w ∈ plan.writes)
    (h : StagedFor plan d fs done) {d' : Disk} (hdirs : SameDirectories d d') :
    (cleared d' fs).here = d.here ∧ ∀ l, (cleared d' fs).view l =
      if l ∈ temporaryPlaces d done then none else d'.view l := by
  rw [← h.map_temporary, hdirs.here]
  apply Migration.view_cleared hdirs
  · intro f hf
    obtain ⟨w, hw, _, htemp⟩ := h.exists_write hf
    rw [htemp]
    exact reaches_temporaryOf (ho.parents w (hd w hw))
  · intro f hf
    obtain ⟨w, hw, _, htemp⟩ := h.exists_write hf
    simp [htemp, ho.temporaries w (hd w hw)]

end StagedFor

theorem run_stage_of_passes (ho : plan.Orderly d) (hw : w ∈ plan.writes)
    (hd : ∀ w ∈ done, w ∈ plan.writes) (hfs : StagedFor plan d fs done)
    (ha : AgreesOff (temporaryPlaces d done) d s.disk) (hp : Passes (plan.stagingOf w) s s₁) :
    ∃ f t, (stage plan w).run s = (.ok f, t) ∧ Alike t s₁ ∧
      StagedFor plan d (fs ++ [f]) (done ++ [w]) ∧
      AgreesOff (temporaryPlaces d (done ++ [w])) d t.disk := by
  obtain ⟨previous, t, hprev, hdisk, hrem, hwrite⟩ := run_previousOf_of_passes ho hw hd ha hp
  rw [← hdisk] at ha
  have hr := ha.directories.reaches (reaches_temporaryOf (ho.parents w hw))
  obtain ⟨t', hwritten, halike⟩ := run_writeStaged_of_succeeds hwrite
  refine ⟨⟨w.path, temporaryOf w.path, previous⟩, { t' with
    lines := t'.lines ++ [⟨.debug, "staged: " ++ (temporaryOf w.path).text⟩] }, ?_, halike,
    hfs.concat hrem, ?_⟩
  · unfold stage
    rw [Work.run_bind_of_ok hprev, Work.run_bind_of_ok (run_makeParent (reaches_temporaryOf hr)),
      Work.run_bind_of_ok hwritten]
    rfl
  · obtain ⟨hhere, hview⟩ := view_writeFile hwrite.2.1
    rw [← ha.directories.place] at hview
    rw [halike.1]
    have hset := ha.of_set hhere hview (by simp [ho.temporaries w hw]) (by simp)
    exact hset.mono fun l hl => by simpa [temporaryPlaces, or_comm] using hl

theorem mem_writes_concat (hw : w ∈ plan.writes) (hd : ∀ w ∈ done, w ∈ plan.writes) :
    ∀ w' ∈ done ++ [w], w' ∈ plan.writes := by
  intro w' hw'
  rcases List.mem_append.mp hw' with hw' | hw'
  · exact hd w' hw'
  · exact List.mem_singleton.mp hw' ▸ hw

theorem run_stageAll_of_passes (ho : plan.Orderly d) (hws : ∀ w ∈ ws, w ∈ plan.writes)
    (hd : ∀ w ∈ done, w ∈ plan.writes) (hfs : StagedFor plan d fs done)
    (ha : AgreesOff (temporaryPlaces d done) d s.disk)
    (hp : Passes (ws.flatMap plan.stagingOf) s s₁) :
    ∃ fs' t, (stageAll plan fs ws).run s = (.ok fs', t) ∧ Alike t s₁ ∧
      StagedFor plan d fs' (done ++ ws) ∧ AgreesOff (temporaryPlaces d (done ++ ws)) d t.disk := by
  induction ws generalizing fs done s s₁ with
  | nil =>
    obtain _ | _ := hp
    exact ⟨fs, s, rfl, .refl s, by simpa using hfs, by simpa using ha⟩
  | cons w ws ih =>
    obtain ⟨m, hw, hrest⟩ := Passes.of_append hp
    have hmem := hws w List.mem_cons_self
    obtain ⟨f, t, hrun, halike, hfs', ha'⟩ := run_stage_of_passes ho hmem hd hfs ha hw
    obtain ⟨t₁, hrest, halike₁⟩ := hrest.alike halike
    obtain ⟨fs'', t', hrun', halike', hfs'', ha''⟩ :=
      ih (fun w hw => hws w (List.mem_cons_of_mem _ hw)) (mem_writes_concat hmem hd) hfs' ha' hrest
    refine ⟨fs'', t', ?_, halike'.trans halike₁, by simpa using hfs'', by simpa using ha''⟩
    unfold stageAll
    rw [Work.run_bind_of_ok (Work.run_rescue_of_ok hrun _)]
    exact hrun'

/-- When a file cannot be staged the disk is left as it was found. -/
theorem run_stageAll_of_failsAt (ho : plan.Orderly d) (hws : ∀ w ∈ ws, w ∈ plan.writes)
    (hd : ∀ w ∈ done, w ∈ plan.writes) (hfs : StagedFor plan d fs done)
    (ha : AgreesOff (temporaryPlaces d done) d s.disk)
    (h : FailsAt (ws.flatMap plan.stagingOf) n s) :
    ∃ e t, (stageAll plan fs ws).run s = (.error e, t) ∧ t.disk.here = d.here ∧
      t.disk.view = d.view := by
  induction ws generalizing fs done s n with
  | nil => nomatch h
  | cons w ws ih =>
    have hmem := hws w List.mem_cons_self
    rcases FailsAt.of_append h with hw | ⟨m, hw, _, hrest⟩
    · obtain ⟨e, t, hrun, hhere, hview⟩ := run_stage_of_failsAt ho hmem ha hw
      have hnone := ho.temporaries w hmem
      have hdirs : SameDirectories d t.disk := by
        rcases hview with hview | hview
        · exact ha.directories.trans ⟨hhere.symm, fun l => by rw [hview]⟩
        · exact ha.directories.trans (.of_set hhere hview (ha.directories.view_ne (by simp [hnone]))
            (by simp))
      obtain ⟨hhere', hview'⟩ := hfs.view_cleared ho hd hdirs
      refine ⟨e, { t with disk := cleared t.disk fs }, ?_, hhere', ?_⟩
      · unfold stageAll
        rw [Work.run_bind_of_error]
        rw [Work.run_rescue_of_error hrun, Work.run_bind_of_ok (run_discard fs t)]
        rfl
      · funext l
        rw [hview']
        split
        · rename_i hl
          obtain ⟨w', hw', rfl⟩ := List.mem_map.mp hl
          exact (ho.temporaries w' (hd w' hw')).symm
        · rename_i hl
          rcases hview with hview | hview
          · rw [hview, ha.view l hl]
          · rw [hview, View.set_apply]
            split
            · rename_i hlw
              rw [hlw, hnone]
            · exact ha.view l hl
    · obtain ⟨f, t, hrun, halike, hfs', ha'⟩ := run_stage_of_passes ho hmem hd hfs ha hw
      obtain ⟨e, t', hrun', hrest'⟩ := ih (fun w hw => hws w (List.mem_cons_of_mem _ hw))
        (mem_writes_concat hmem hd) hfs' ha' (hrest.alike halike)
      refine ⟨e, t', ?_, hrest'⟩
      unfold stageAll
      rw [Work.run_bind_of_ok (Work.run_rescue_of_ok hrun _)]
      exact hrun'

end Workyard.Migration
