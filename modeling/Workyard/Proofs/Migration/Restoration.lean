import Workyard.Proofs.Migration.RollBack

/-!
# Restoration

When an operation of a migration fails, what was done before is undone. The disk is then as it
was found, but for what moves aside had put something else over.
-/

namespace Workyard.Migration

set_option autoImplicit false

open Disk

/-- The moves aside that come before an operation. -/
def Plan.asideBefore (plan : Plan) (n : Nat) : List Rename :=
  plan.renames.take (n - plan.staging.length)

variable {plan : Plan} {d d₁ d₂ : Disk} {s : Session} {n : Nat} {p : FilePath} {l : Location}
variable {rs : List Rename} {fs gs : List Staged}

theorem exists_source_of_movesAside (d : Disk) (h : plan.movesAside p = true) :
    ∃ r ∈ plan.renames, d.place r.source = d.place p := by
  obtain ⟨r, hr, hsame⟩ := List.any_eq_true.mp h
  exact ⟨r, hr, d.place_of_same hsame⟩

section Restored

variable (ho : plan.Orderly d) (hfs : StagedFor plan d fs plan.writes)
variable (ha : AgreesOff (temporaryPlaces d plan.writes) d d₁)
variable (hrs : ∀ r ∈ rs, r ∈ plan.renames) (hgs : ∀ g ∈ gs, g ∈ fs)
variable (hmoved : Moved d (rs ++ gs.map (·.placing)) d₁ d₂)

include hfs hgs hmoved in
/-- With the written files undone, only the moves aside tell the disk from the staged one. -/
theorem view_files_back :
    SameDirectories d ((gs.map (·.step)).foldr Step.back d₂) ∧
    ∀ l, l ∉ temporaryPlaces d plan.writes →
      ((gs.map (·.step)).foldr Step.back d₂).view l =
        match gs.find? (fun g => d.place g.path = l) with
        | some g => g.previous.map fun t => .file (.text t)
        | none => d₁.view.moveAll (rs.map (·.move d)) l := by
  have hmovable : ∀ g ∈ gs, d.Movable g.temporary g.path := fun g hg =>
    hmoved.movable g.placing (List.mem_append_right _ (List.mem_map_of_mem hg))
  obtain ⟨hdirs, hview⟩ := view_back_files hmoved.directories fun g hg =>
    ⟨(hmovable g hg).target, (hmovable g hg).targetFile⟩
  refine ⟨hdirs, fun l hl => ?_⟩
  rw [hview l]
  cases hfind : gs.find? fun g => d.place g.path = l with
  | some g => rfl
  | none =>
    simp only [List.find?_eq_none, decide_eq_true_eq] at hfind
    rw [hmoved.view, List.map_append, View.moveAll_append]
    apply View.moveAll_of_not_mem
    · intro hmem
      simp only [List.map_map, List.mem_map, Function.comp_apply] at hmem
      obtain ⟨g, hg, rfl⟩ := hmem
      rw [← hfs.map_temporary] at hl
      exact hl (List.mem_map_of_mem (hgs g hg))
    · intro hmem
      simp only [List.map_map, List.mem_map, Function.comp_apply] at hmem
      obtain ⟨g, hg, rfl⟩ := hmem
      exact hfind g hg rfl

include ho hfs ha hrs hgs hmoved

theorem view_restored (hall : gs ≠ [] → rs = plan.renames) :
    SameDirectories d ((rs.map (·.step) ++ gs.map (·.step)).foldr Step.back d₂) ∧
    ∀ l, l ∉ temporaryPlaces d plan.writes →
      (survives (rs.map (·.move d)) l = true →
        ((rs.map (·.step) ++ gs.map (·.step)).foldr Step.back d₂).view l = d.view l) ∧
      (l ∉ plan.writePlaces d →
        ((rs.map (·.step) ++ gs.map (·.step)).foldr Step.back d₂).view l =
          if survives (rs.map (·.move d)) l then d.view l else none) := by
  obtain ⟨hdirs, hfiles⟩ := view_files_back hfs hgs hmoved
  have hmovable : ∀ r ∈ rs, d.Movable r.source r.target := fun r hr =>
    hmoved.movable r (List.mem_append_left _ hr)
  obtain ⟨hdirs', hview⟩ := view_back_renames hdirs hmovable
  rw [List.foldr_append]
  generalize (gs.map (·.step)).foldr Step.back d₂ = d₃ at *
  have ht : ∀ m ∈ rs.map (·.move d), ¬ plan.Touches d m.2 := by
    intro m hm
    obtain ⟨r, hr, rfl⟩ := List.mem_map.mp hm
    exact ho.not_touches_target (hrs r hr) (ho.targets r (hrs r hr))
  have hallows : d₁.view.Allows (rs.map (·.move d)) := by
    have h := hmoved.allows
    rw [List.map_append] at h
    exact h.of_append
  have hplace : ∀ g ∈ gs, d.place g.path ∈ plan.writePlaces d := by
    intro g hg
    obtain ⟨w, hw, hpath, _⟩ := hfs.exists_write (hgs g hg)
    rw [hpath]
    exact List.mem_map_of_mem hw
  have hnone : ∀ l, l ∉ plan.writePlaces d → gs.find? (fun g => d.place g.path = l) = none := by
    intro l hl
    simp only [List.find?_eq_none, decide_eq_true_eq]
    rintro g hg rfl
    exact hl (hplace g hg)
  have hoff : ∀ l, ¬ plan.Touches d l → d₃.view l = d₁.view.moveAll (rs.map (·.move d)) l := by
    intro l hl
    rw [hfiles l fun h => hl (.inl h), hnone l fun h => hl (.inr h)]
  refine ⟨hdirs', fun l hl => ?_⟩
  rw [hview, ← ha.view l hl]
  by_cases hw : l ∈ plan.writePlaces d
  · refine ⟨fun hs => ?_, fun hn => absurd hw hn⟩
    by_cases hsource : l ∈ (rs.map (·.move d)).map Prod.fst
    · exact View.moveBack_loose_source ht hoff hallows (.inr hw) hsource hs
    · -- a place to which nothing moves back is one whose file has been put back
      have htarget : l ∉ (rs.map (·.move d)).map Prod.snd := by
        intro hmem
        obtain ⟨m, hm, rfl⟩ := List.mem_map.mp hmem
        exact ht m hm (.inr hw)
      rw [View.moveBack_of_not_source hsource htarget, hfiles l hl]
      cases hfind : gs.find? fun g => d.place g.path = l with
      | none => exact View.moveAll_of_not_mem hsource htarget
      | some g =>
        have hg := List.mem_of_find?_eq_some hfind
        obtain rfl : d.place g.path = l := by simpa using List.find?_some hfind
        have hrem := hfs.remembers g (hgs g hg)
        cases haside : plan.movesAside g.path with
        | true =>
          obtain ⟨r, hr, hplace⟩ := exists_source_of_movesAside d haside
          obtain rfl := hall (List.ne_nil_of_mem hg)
          refine absurd ?_ hsource
          rw [← hplace, List.map_map]
          exact List.mem_map_of_mem (f := Prod.fst ∘ Rename.move d) hr
        | false =>
          simp only [Staged.Remembers, haside, Bool.false_eq_true, if_false] at hrem
          rw [ha.view _ hl]
          exact hrem.symm
  · have happly := View.moveBack_apply ht hoff hallows (l := l) fun h => h.elim hl hw
    exact ⟨fun hs => by rw [happly, if_pos hs], fun _ => happly⟩

end Restored

/-- What a failing migration leaves: where nothing was lost to a move aside, what stood there
before. Where no file is written, what was lost to one is gone. -/
structure Restored (plan : Plan) (n : Nat) (d d' : Disk) : Prop where
  here : d'.here = d.here
  movable : ∀ r ∈ plan.asideBefore n, d.Movable r.source r.target
  view : ∀ l, survives ((plan.asideBefore n).map (·.move d)) l = true → d'.view l = d.view l
  lost : ∀ l, l ∉ plan.writePlaces d →
    survives ((plan.asideBefore n).map (·.move d)) l = false → d'.view l = none

/-- Whichever operation fails, applying a plan fails and restores the disk. -/
theorem run_apply_of_failsAt (ho : plan.Orderly s.disk) (h : FailsAt plan.operations n s) :
    ∃ e t, (apply plan false).run s = (.error e, t) ∧ Restored plan n s.disk t.disk := by
  have hmem : ∀ w ∈ plan.writes, w ∈ plan.writes := fun _ hw => hw
  have hnil : ∀ w ∈ ([] : List FileWrite), w ∈ plan.writes := by simp
  rw [apply_false]
  rcases FailsAt.of_append h with hstage | ⟨s', hstaged, hn, hcommit⟩
  · obtain ⟨e, t, hrun, hhere, hview⟩ := run_stageAll_of_failsAt ho hmem hnil
      (.nil plan s.disk) (.refl _ s.disk) hstage
    have haside : plan.asideBefore n = [] := by
      have := hstage.lt_length
      simp [Plan.asideBefore]
      omega
    refine ⟨e, t, Work.run_bind_of_error hrun _, hhere, by simp [haside], ?_, ?_⟩
    · simp [hview]
    · simp [haside, survives]
  · obtain ⟨fs, t, hrun, halike, hfs, ha⟩ := run_stageAll_of_passes ho hmem hnil
      (.nil plan s.disk) (.refl _ s.disk) hstaged
    rw [List.nil_append] at hfs ha
    rw [← hfs.map_placing] at hcommit
    have hfiles : ∀ f ∈ fs, s.disk.Reaches (temporaryOf f.path) ∧
        s.disk.view (s.disk.place f.temporary) ≠ some .directory := by
      intro f hf
      obtain ⟨w, hw, hpath, htemporary⟩ := hfs.exists_write hf
      exact ⟨reaches_temporaryOf (hpath ▸ ho.parents w hw), by simp [htemporary, ho.temporaries w hw]⟩
    obtain ⟨e, u, hfail, hmoved⟩ := run_commit_of_failsAt ha.directories ho.sources hfiles
      (hcommit.alike halike)
    have hall : fs.take (n - plan.staging.length - plan.renames.length) ≠ [] →
        plan.asideBefore n = plan.renames := by
      intro hne
      apply List.take_of_length_le
      have : n - plan.staging.length - plan.renames.length ≠ 0 := fun h0 => hne (by simp [h0])
      omega
    obtain ⟨u', hrestore, hdisk⟩ := @run_restore (List Step) fs ⟨e, _⟩ u
    obtain ⟨hdirs, hview⟩ := view_restored ho hfs ha (fun r hr => List.mem_of_mem_take hr)
      (fun g hg => List.mem_of_mem_take hg) hmoved hall
    obtain ⟨hhere, hcleared⟩ := hfs.view_cleared ho hmem hdirs
    rw [← hdisk] at hhere hcleared
    refine ⟨e, u', ?_, hhere, ?_, ?_, ?_⟩
    · rw [Work.run_bind_of_ok hrun, Work.run_bind_of_error]
      rw [Work.run_rescue_of_error hfail, hrestore]
    · exact fun r hr => hmoved.movable r (List.mem_append_left _ hr)
    · intro l hs
      rw [hcleared]
      split
      · rename_i hl
        obtain ⟨w, hw, rfl⟩ := List.mem_map.mp hl
        exact (ho.temporaries w hw).symm
      · rename_i hl
        exact (hview l hl).1 hs
    · intro l hl hs
      rw [hcleared]
      split
      · rfl
      · rename_i htemporary
        exact ((hview l htemporary).2 hl).trans (if_neg (Bool.eq_false_iff.mp hs))

/-- When the places that files move aside to are distinct and free, a failing migration leaves
the disk as it was found. -/
theorem run_apply_leaves_disk (ho : plan.Orderly s.disk)
    (hdistinct : (plan.renames.map fun r => s.disk.place r.target).Nodup)
    (hfree : ∀ r ∈ plan.renames, ∀ c, s.disk.at? (s.disk.place r.target) ≠ some (.file c))
    (h : FailsAt plan.operations n s) :
    ∃ e t, (apply plan false).run s = (.error e, t) ∧ t.disk.here = s.disk.here ∧
      ∀ l, t.disk.at? l = s.disk.at? l := by
  obtain ⟨e, t, hrun, hrestored⟩ := run_apply_of_failsAt ho h
  refine ⟨e, t, hrun, hrestored.here, fun l => ?_⟩
  have haside : ∀ r ∈ plan.asideBefore n, r ∈ plan.renames := fun r hr => List.mem_of_mem_take hr
  have hnodup : (((plan.asideBefore n).map (·.move s.disk)).map Prod.snd).Nodup := by
    rw [List.map_map]
    exact hdistinct.sublist ((List.take_sublist ..).map _)
  by_cases hl : l ∈ ((plan.asideBefore n).map (·.move s.disk)).map Prod.snd
  · cases hs : survives ((plan.asideBefore n).map (·.move s.disk)) l with
    | true => exact hrestored.view l hs
    | false =>
      simp only [List.map_map, List.mem_map, Function.comp_apply] at hl
      obtain ⟨r, hr, rfl⟩ := hl
      have hwrite : s.disk.place r.target ∉ plan.writePlaces s.disk := by
        intro hmem
        obtain ⟨w, hw, hplace⟩ := List.mem_map.mp hmem
        exact ho.targets r (haside r hr) w hw hplace.symm
      have hnone : s.disk.view (s.disk.place r.target) = none := by
        cases hv : s.disk.view (s.disk.place r.target) with
        | none => rfl
        | some node =>
          cases node with
          | file c => exact absurd hv (hfree r (haside r hr) c)
          | directory => exact absurd hv (hrestored.movable r hr).targetFile
      exact (hrestored.lost _ hwrite hs).trans hnone.symm
  · exact hrestored.view l (View.survives_of_not_target hnodup hl)

/-- A migration of two files, one of which moves aside, and a disk that it fits. -/
def twoFiles : Plan where
  root := ⟨""⟩
  migrated := []
  skipped := []
  renames := [⟨⟨"a"⟩, ⟨"a.old"⟩⟩]
  writes := [⟨⟨"a"⟩, "new a"⟩, ⟨⟨"c"⟩, "new c"⟩]

def twoFilesDisk : Disk :=
  ⟨.directory [("a", .file (.text "old a")), ("c", .file (.text "old c"))], []⟩

theorem orderly_twoFiles : twoFiles.Orderly twoFilesDisk where
  sources := by decide
  targets := by decide
  parents := by
    intro w hw
    simp only [twoFiles, List.mem_cons, List.not_mem_nil, or_false] at hw
    rcases hw with rfl | rfl <;> rfl
  temporaries := by decide
  sourcesApart := by decide
  targetsApart := by decide
  writesApart := by decide

/-- The second file cannot take its place, after the first one has. -/
def lastFails : Session :=
  ⟨twoFilesDisk, [none, none, none, none, none, some ⟨.notEmpty, none⟩], []⟩

theorem lastFails_failsAt : FailsAt twoFiles.operations 5 lastFails := by
  have h {o : Operation} {s : Session} {d : Disk} := @Operation.succeeds_of_perform o s d
  exact .later (h rfl rfl) (.later (h rfl rfl) (.later (h rfl rfl) (.later (h rfl rfl)
    (.later (h rfl rfl) (.here nofun)))))

theorem run_apply_leaves_disk_lastFails :
    ∃ e t, (apply twoFiles false).run lastFails = (.error e, t) ∧ t.disk.here = twoFilesDisk.here ∧
      ∀ l, t.disk.at? l = twoFilesDisk.at? l := by
  have hfree : ∀ r ∈ twoFiles.renames, ∀ c,
      twoFilesDisk.at? (twoFilesDisk.place r.target) ≠ some (.file c) := by
    intro r hr c
    obtain rfl := List.mem_singleton.mp hr
    nofun
  exact run_apply_leaves_disk orderly_twoFiles (by decide) hfree lastFails_failsAt

/-- A file that another one moves onto is put back just when it had itself been moved out of the
way, and nothing else over it since; otherwise it is gone. -/
theorem run_apply_of_replaced (ho : plan.Orderly s.disk) (h : FailsAt plan.operations n s)
    {r : Rename} (hr : r ∈ plan.asideBefore n) {c : Content}
    (hc : s.disk.at? (s.disk.place r.target) = some (.file c)) :
    ∃ e t, (apply plan false).run s = (.error e, t) ∧ t.disk.at? (s.disk.place r.target) =
      if survives ((plan.asideBefore n).map (·.move s.disk)) (s.disk.place r.target) then
        some (.file c)
      else none := by
  obtain ⟨e, t, hrun, hrestored⟩ := run_apply_of_failsAt ho h
  refine ⟨e, t, hrun, ?_⟩
  have hwrite : s.disk.place r.target ∉ plan.writePlaces s.disk := by
    intro hmem
    obtain ⟨w, hw, hplace⟩ := List.mem_map.mp hmem
    exact ho.targets r (List.mem_of_mem_take hr) w hw hplace.symm
  split
  · rename_i hs
    exact (hrestored.view _ hs).trans hc
  · rename_i hs
    exact hrestored.lost _ hwrite (Bool.eq_false_iff.mpr hs)

/-- One file moves onto another, and then a move finds nothing. -/
def overwriting : Plan where
  root := ⟨"ws"⟩
  migrated := []
  skipped := []
  renames := [⟨⟨"ws/a"⟩, ⟨"ws/b"⟩⟩, ⟨⟨"ws/missing"⟩, ⟨"ws/x"⟩⟩]
  writes := []

def overwritten : Disk :=
  ⟨.directory [("ws", .directory [("a", .file (.text "1")), ("b", .file (.text "2"))])], []⟩

theorem orderly_overwriting : overwriting.Orderly overwritten where
  sources := by decide
  targets := by decide
  parents := nofun
  temporaries := by decide
  sourcesApart := by decide
  targetsApart := by decide
  writesApart := by decide

theorem overwriting_failsAt : FailsAt overwriting.operations 1 (.start overwritten) :=
  .later (Operation.succeeds_of_perform rfl rfl) (.here ⟨.notFound, rfl⟩)

theorem run_apply_of_replaced_overwritten :
    ∃ e t, (apply overwriting false).run (.start overwritten) = (.error e, t) ∧
      t.disk.at? ["ws", "b"] = none := by
  have hb : overwritten.at? ["ws", "b"] = some (.file (.text "2")) := by decide
  exact run_apply_of_replaced orderly_overwriting overwriting_failsAt List.mem_cons_self hb

/-- What a file has replaced does not come back. -/
theorem replaced_file_is_lost :
    ∃ t, (apply overwriting false).run (.start overwritten) =
        (.error (.io ⟨"ws/missing"⟩ .notFound), t) ∧
      overwritten.at? ["ws", "b"] = some (.file (.text "2")) ∧
      t.disk.at? ["ws", "b"] = none :=
  ⟨_, rfl, rfl, rfl⟩

end Workyard.Migration
