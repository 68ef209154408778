import Workyard.Proofs.Disk.Directories
import Workyard.Proofs.Migration.Commit

/-!
# Staging that succeeds

A file that was staged stands at its temporary place, in a directory that was there or was made.
Nothing else has changed.
-/

namespace Workyard.Migration

set_option autoImplicit false

open Disk

variable {plan : Plan} {d d₁ d₂ : Disk} {s t : Session} {p : FilePath} {l : Location}
variable {w : FileWrite} {ws : List FileWrite} {f : Staged} {fs fs' : List Staged}

/-- A location above a file that is staged. -/
def AboveStaged (d : Disk) (ws : List FileWrite) (l : Location) : Prop :=
  ∃ w ∈ ws, ∃ r : FilePath, r.IsAbove (temporaryOf w.path) ∧ l = d.place r

/-- The file is written at its temporary place after its directory was made. -/
def Lays (w : FileWrite) (d d₂ : Disk) : Prop :=
  ∃ d₁, Grows [] (AboveStaged d [w]) d d₁ ∧
    d₁.writeFile (temporaryOf w.path) (.text w.content) = .ok d₂

inductive LaysAll : List FileWrite → Disk → Disk → Prop where
  | nil (d : Disk) : LaysAll [] d d
  | cons {w : FileWrite} {ws : List FileWrite} {d d₁ d₂ : Disk} :
    Lays w d d₁ → LaysAll ws d₁ d₂ → LaysAll (w :: ws) d d₂

theorem run_readText_disk {x : Except Fault String} (h : (Work.readText p).run s = (x, t)) :
    t.disk = s.disk := by
  obtain ⟨d, ahead, lines⟩ := s
  rcases ahead with _ | ⟨_ | m, ms⟩ <;> obtain ⟨_, rfl⟩ := Prod.mk.inj h <;> rfl

theorem run_previousOf_disk {x : Except MigrationError (Option String)}
    (h : (previousOf plan p).run s = (x, t)) : t.disk = s.disk := by
  unfold previousOf at h
  split at h
  · obtain ⟨_, rfl⟩ := Prod.mk.inj h
    rfl
  · obtain ⟨r, u, hread⟩ : ∃ r u, (Work.readText p).run s = (r, u) := ⟨_, _, rfl⟩
    have hdisk := run_readText_disk hread
    have hmap : (some <$> Work.readText p).run s = (r.map some, u) := by
      rw [Work.run_map, hread]
      cases r <;> rfl
    cases r with
    | ok text =>
      rw [Work.run_rescue_of_ok hmap] at h
      obtain ⟨_, rfl⟩ := Prod.mk.inj h
      exact hdisk
    | error fault =>
      rw [Work.run_rescue_of_error hmap] at h
      split at h <;> obtain ⟨_, rfl⟩ := Prod.mk.inj h <;> exact hdisk

theorem run_makeDirectories_disk {x : Except Fault Unit}
    (h : (Work.makeDirectories p).run s = (x, t)) : t.disk = (s.disk.makeDirectories p).1 := by
  simp only [Work.makeDirectories] at h
  split at h <;> rename_i hd <;> obtain ⟨_, rfl⟩ := Prod.mk.inj h <;> rw [hd]

/-- Directories are made above the path only. -/
theorem grows_of_makeParent (h : (makeParent p).run s = (.ok (), t)) :
    Grows [] (fun l => ∃ r : FilePath, r.IsAbove p ∧ l = s.disk.place r) s.disk t.disk := by
  unfold makeParent at h
  cases hq : p.parent? with
  | none =>
    simp only [hq, Work.run_pure] at h
    obtain ⟨_, rfl⟩ := Prod.mk.inj h
    exact .refl ..
  | some q =>
    simp only [hq] at h
    rw [run_makeDirectories_disk (Work.run_mapError_eq_ok h)]
    refine (grows_makeAll _ q s.disk).mono (fun _ hl => hl) fun l ⟨r, hr, hl⟩ => ⟨r, ?_, hl⟩
    rcases hr with rfl | hr
    · exact .parent hq
    · exact .further hq hr

theorem writeFile_of_run_writeText {text : String}
    (h : (Work.writeText p text).run s = (.ok (), t)) :
    s.disk.writeFile p (.text text) = .ok t.disk := by
  obtain ⟨d, ahead, lines⟩ := s
  have hnone (ms : List (Option Mishap))
      (hnext : Session.next ⟨d, ahead, lines⟩ = (none, ⟨d, ms, lines⟩)) :
      d.writeFile p (.text text) = .ok t.disk := by
    simp only [Work.writeText, hnext] at h
    cases hd : d.writeFile p (.text text) with
    | error f => simp [hd] at h
    | ok d' =>
      simp only [hd, Prod.mk.injEq, true_and] at h
      rw [← h]
  rcases ahead with _ | ⟨_ | m, ms⟩
  · exact hnone [] rfl
  · exact hnone ms rfl
  · simp [Work.writeText, Session.next] at h

theorem run_stage_eq_ok (h : (stage plan w).run s = (.ok f, t)) :
    f.placing = w.placing ∧ Lays w s.disk t.disk := by
  unfold stage at h
  obtain ⟨previous, s₁, hprevious, h⟩ := Work.run_bind_eq_ok h
  obtain ⟨_, s₂, hparent, h⟩ := Work.run_bind_eq_ok h
  obtain ⟨_, s₃, hwrite, h⟩ := Work.run_bind_eq_ok h
  obtain ⟨_, s₄, hsay, h⟩ := Work.run_bind_eq_ok h
  obtain ⟨hf, rfl⟩ := Prod.mk.inj h
  obtain rfl := Except.ok.inj hf
  obtain ⟨_, rfl⟩ := Prod.mk.inj hsay
  have hdisk := run_previousOf_disk hprevious
  refine ⟨rfl, s₂.disk, ?_, (?_ : s₂.disk.writeFile _ _ = .ok s₃.disk)⟩
  · rw [← hdisk]
    exact (grows_of_makeParent hparent).mono (fun _ hl => hl) fun l ⟨r, hr, hl⟩ =>
      ⟨w, List.mem_singleton_self w, r, hr, hl⟩
  · unfold writeStaged at hwrite
    obtain hrun | ⟨_, _, _, hfail⟩ := Work.run_rescue_eq_ok hwrite
    · exact writeFile_of_run_writeText hrun
    · obtain ⟨_, _, _, hfail⟩ := Work.run_bind_eq_ok hfail
      simp at hfail

theorem run_stageAll_eq_ok (h : (stageAll plan fs ws).run s = (.ok fs', t)) :
    fs'.map (·.placing) = fs.map (·.placing) ++ ws.map (·.placing) ∧
      LaysAll ws s.disk t.disk := by
  induction ws generalizing fs s with
  | nil =>
    obtain ⟨hfs, rfl⟩ := Prod.mk.inj h
    obtain rfl := Except.ok.inj hfs
    exact ⟨by simp, .nil _⟩
  | cons w ws ih =>
    unfold stageAll at h
    obtain ⟨f, s₁, hstage, h⟩ := Work.run_bind_eq_ok h
    obtain hrun | ⟨_, _, _, hfail⟩ := Work.run_rescue_eq_ok hstage
    · obtain ⟨hplacing, hlays⟩ := run_stage_eq_ok hrun
      obtain ⟨hrest, hlaysAll⟩ := ih h
      exact ⟨by simp [hrest, hplacing], .cons hlays hlaysAll⟩
    · obtain ⟨_, _, _, hfail⟩ := Work.run_bind_eq_ok hfail
      simp at hfail

theorem Lays.grows (h : Lays w d d₂) :
    Grows (temporaryPlaces d [w]) (AboveStaged d [w]) d d₂ ∧ d₂.Reaches (temporaryOf w.path) ∧
      d₂.view (d.place (temporaryOf w.path)) = some (.file (.text w.content)) := by
  obtain ⟨d₁, hgrows, hwrite⟩ := h
  obtain ⟨hreaches, hne, _⟩ := writeFile_eq_ok_iff.mp hwrite
  obtain ⟨hhere, hview⟩ := view_writeFile hwrite
  rw [← hgrows.place] at hne hview
  have hset : Grows (temporaryPlaces d [w]) (AboveStaged d [w]) d₁ d₂ := by
    refine grows_of_set hhere hview (fun n hn => ?_) fun hl => ?_
    · exact iff_of_false (by simp) fun h => hne (h ▸ hn)
    · exact absurd (List.mem_singleton_self _) hl
  exact ⟨(hgrows.mono (by simp) fun _ hl => hl).trans hset, hset.reaches hreaches,
    by rw [hview, View.set_self]⟩

theorem AboveStaged.mono {ws' : List FileWrite} (hws : ∀ w ∈ ws, w ∈ ws')
    (h : AboveStaged d ws l) : AboveStaged d ws' l := by
  obtain ⟨w, hw, hr⟩ := h
  exact ⟨w, hws w hw, hr⟩

theorem aboveStaged_congr (hhere : d₁.here = d.here) : AboveStaged d₁ ws = AboveStaged d ws := by
  funext l
  simp only [AboveStaged, place_congr hhere]

theorem temporaryPlaces_congr (hhere : d₁.here = d.here) :
    temporaryPlaces d₁ ws = temporaryPlaces d ws := by
  simp only [temporaryPlaces, place_congr hhere]

namespace LaysAll

theorem grows (h : LaysAll ws d d₂) : Grows (temporaryPlaces d ws) (AboveStaged d ws) d d₂ := by
  induction h with
  | nil d => exact .refl ..
  | @cons w ws d d₁ d₂ hw _ ih =>
    have hfirst := hw.grows.1
    rw [temporaryPlaces_congr hfirst.here, aboveStaged_congr hfirst.here] at ih
    have hw' : Grows (temporaryPlaces d (w :: ws)) (AboveStaged d (w :: ws)) d d₁ :=
      hfirst.mono (by simp [temporaryPlaces]) fun _ => .mono (by simp)
    have hws : Grows (temporaryPlaces d (w :: ws)) (AboveStaged d (w :: ws)) d₁ d₂ :=
      ih.mono (fun l hl => List.mem_cons_of_mem _ hl) fun _ => .mono fun w hw =>
        List.mem_cons_of_mem _ hw
    exact hw'.trans hws

theorem reaches (h : LaysAll ws d d₂) (hw : w ∈ ws) : d₂.Reaches (temporaryOf w.path) := by
  induction h with
  | nil d => simp at hw
  | cons hfirst hrest ih =>
    rcases List.mem_cons.mp hw with rfl | hw
    · exact hrest.grows.reaches hfirst.grows.2.1
    · exact ih hw

theorem view_file (h : LaysAll ws d d₂) (hw : w ∈ ws) :
    ∃ c, d₂.view (d.place (temporaryOf w.path)) = some (.file c) := by
  induction h with
  | nil d => simp at hw
  | cons hfirst hrest ih =>
    rcases List.mem_cons.mp hw with rfl | hw
    · exact hrest.grows.file hfirst.grows.2.2
    · rw [hfirst.grows.1.place]
      exact ih hw

/-- When the temporary places are distinct each holds what it was staged for. -/
theorem view_content (h : LaysAll ws d d₂) (hnodup : (temporaryPlaces d ws).Nodup) (hw : w ∈ ws) :
    d₂.view (d.place (temporaryOf w.path)) = some (.file (.text w.content)) := by
  induction h with
  | nil d => simp at hw
  | cons hfirst hrest ih =>
    obtain ⟨hgrows, _, hview⟩ := hfirst.grows
    obtain ⟨hnot, hdistinct⟩ := List.nodup_cons.mp hnodup
    rcases List.mem_cons.mp hw with rfl | hw
    · refine hrest.grows.view_file ?_ hview
      rw [temporaryPlaces_congr hgrows.here]
      exact hnot
    · rw [hgrows.place]
      refine ih ?_ hw
      rw [temporaryPlaces_congr hgrows.here]
      exact hdistinct

end LaysAll

end Workyard.Migration
