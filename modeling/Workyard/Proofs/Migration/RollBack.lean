import Workyard.Proofs.Disk.Moves
import Workyard.Proofs.Migration.Commit

/-!
# Rolling back

Undoing the steps of a journal from the last one on moves files back and puts back what the
files that were written had replaced. No step keeps another one from being undone.
-/

namespace Workyard.Migration

set_option autoImplicit false

open Disk

/-- The disk with a step undone, or as it is if the step cannot be undone. -/
def Step.back (s : Step) (d : Disk) : Disk :=
  (s.undo d).toOption.getD d

theorem apply_false (plan : Plan) : apply plan false = (do
    let staged ← stageAll plan [] plan.writes
    let journal ← (commit plan staged).rescue (restore staged)
    pure (journal.map Step.effect)) := rfl

theorem apply_true (plan : Plan) : apply plan true = (do
    announce (foreseen plan)
    pure (foreseen plan)) := rfl

variable {d d₁ : Disk} {p q : FilePath} {l : Location} {rs : List Rename} {fs : List Staged}

theorem run_undoStep {ε : Type} (step : Step) (s : Session) :
    ∃ t, (undoStep step : Work ε Unit).run s = (.ok (), t) ∧ t.disk = step.back s.disk := by
  obtain ⟨f, hmend⟩ := @Work.run_mend ε step.undo s
  unfold undoStep
  rw [Work.run_bind_of_ok hmend]
  cases f with
  | none =>
    refine ⟨_, Work.run_say .., ?_⟩
    rfl
  | some f =>
    refine ⟨_, Work.run_say .., ?_⟩
    rfl

theorem run_undoAll {ε : Type} (steps : List Step) (s : Session) :
    ∃ t, (undoAll steps : Work ε Unit).run s = (.ok (), t) ∧
      t.disk = steps.foldl (fun d step => step.back d) s.disk := by
  induction steps generalizing s with
  | nil => exact ⟨s, rfl, rfl⟩
  | cons step steps ih =>
    obtain ⟨t, hrun, hdisk⟩ := @run_undoStep ε step s
    obtain ⟨t', hrun', hdisk'⟩ := ih t
    refine ⟨t', ?_, by rw [hdisk', hdisk]; rfl⟩
    unfold undoAll
    rw [Work.run_bind_of_ok hrun, hrun']

theorem run_rollBack {ε : Type} (journal : List Step) (s : Session) :
    ∃ t, (rollBack journal : Work ε Unit).run s = (.ok (), t) ∧
      t.disk = journal.foldr Step.back s.disk := by
  obtain ⟨t, hrun, hdisk⟩ := @run_undoAll ε journal.reverse s
  exact ⟨t, hrun, by rw [hdisk, List.foldl_reverse]⟩

theorem run_restore {α : Type} (staged : List Staged) (i : Interruption) (s : Session) :
    ∃ t, (restore staged i : Work MigrationError α).run s = (.error i.error, t) ∧
      t.disk = cleared (i.journal.foldr Step.back s.disk) staged := by
  unfold restore
  rw [Work.run_bind_of_ok (Work.run_say ..)]
  obtain ⟨t, hrun, hdisk⟩ := @run_rollBack MigrationError i.journal { s with
    lines := s.lines ++ [⟨.warn, "migration failed, restoring " ++ i.journal.length.repr ++
      " file(s): " ++ i.error.text⟩] }
  rw [Work.run_bind_of_ok hrun, Work.run_bind_of_ok (run_discard staged t)]
  exact ⟨_, rfl, by rw [hdisk]⟩

theorem view_back_renamed (h : d.Movable p q) :
    SameDirectories d ((Step.renamed p q).back d) ∧ ((Step.renamed p q).back d).view =
      if d.view (d.place q) = none then d.view else d.view.move (d.place q) (d.place p) := by
  simp only [Step.back, Step.undo]
  cases hv : d.view (d.place q) with
  | none =>
    obtain ⟨f, hf⟩ := @rename_of_absent d q p hv
    rw [hf]
    exact ⟨.refl d, rfl⟩
  | some n =>
    cases n with
    | directory => exact absurd hv h.targetFile
    | file c =>
      obtain ⟨d', hd', hhere, hview⟩ := h.symm.rename hv
      rw [hd']
      exact ⟨.of_move hhere hview h.targetFile h.sourceFile, hview⟩

theorem view_back_replaced (hr : d.Reaches p) (hp : d.view (d.place p) ≠ some .directory)
    (previous : Option String) :
    SameDirectories d ((Step.replaced p previous).back d) ∧
      ((Step.replaced p previous).back d).view =
        d.view.set (d.place p) (previous.map fun t => .file (.text t)) := by
  cases previous with
  | none =>
    obtain ⟨hhere, hview⟩ := view_without hr hp
    exact ⟨.of_set hhere hview hp (by simp), hview⟩
  | some text =>
    have hwrite := writeFile_of_reaches hr hp (.text text)
    obtain ⟨hhere, hview⟩ := view_writeFile hwrite
    simp only [Step.back, Step.undo]
    rw [hwrite]
    exact ⟨.of_set hhere hview hp (by simp), hview⟩

theorem view_back_renames (hdirs : SameDirectories d d₁)
    (hm : ∀ r ∈ rs, d.Movable r.source r.target) :
    SameDirectories d ((rs.map (·.step)).foldr Step.back d₁) ∧
      ((rs.map (·.step)).foldr Step.back d₁).view = d₁.view.moveBack (rs.map (·.move d)) := by
  induction rs with
  | nil => exact ⟨hdirs, rfl⟩
  | cons r rs ih =>
    obtain ⟨hdirs', hview⟩ := ih fun r hr => hm r (List.mem_cons_of_mem _ hr)
    obtain ⟨hdirs'', hback⟩ := view_back_renamed (hdirs'.movable (hm r List.mem_cons_self))
    rw [← hdirs'.place, ← hdirs'.place, hview] at hback
    rw [List.map_cons, List.foldr_cons, show r.step = .renamed r.source r.target from rfl]
    exact ⟨hdirs'.trans hdirs'', hback⟩

/-- Where files were written there is what the first of them replaced. -/
theorem view_back_files (hdirs : SameDirectories d d₁)
    (hf : ∀ f ∈ fs, d.Reaches f.path ∧ d.view (d.place f.path) ≠ some .directory) :
    SameDirectories d ((fs.map (·.step)).foldr Step.back d₁) ∧
      ∀ l, ((fs.map (·.step)).foldr Step.back d₁).view l =
        match fs.find? (fun f => d.place f.path = l) with
        | some f => f.previous.map fun t => .file (.text t)
        | none => d₁.view l := by
  induction fs with
  | nil => exact ⟨hdirs, fun _ => rfl⟩
  | cons f fs ih =>
    obtain ⟨hdirs', hview⟩ := ih fun f hmem => hf f (List.mem_cons_of_mem _ hmem)
    obtain ⟨hr, hp⟩ := hf f List.mem_cons_self
    have hplace := hdirs'.place f.path
    obtain ⟨hdirs'', hback⟩ := view_back_replaced (hdirs'.reaches hr)
      (hplace ▸ hdirs'.view_ne hp) f.previous
    rw [List.map_cons, List.foldr_cons, show f.step = .replaced f.path f.previous from rfl]
    refine ⟨hdirs'.trans hdirs'', fun l => ?_⟩
    rw [hback, ← hplace, View.set_apply]
    by_cases h : d.place f.path = l
    · simp [h]
    · simp [h, Ne.symm h, hview]

end Workyard.Migration
