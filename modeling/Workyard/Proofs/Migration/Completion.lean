import Workyard.Proofs.Disk.Moves
import Workyard.Proofs.Migration.Laying
import Workyard.Proofs.Migration.RollBack

/-!
# Completion

What a plan makes of a disk when it is applied without a failure, and what a dry run foretells
of that.
-/

namespace Workyard.Migration

set_option autoImplicit false

open Disk

/-- What a plan names are different places, and what moves aside is a file. -/
structure Plan.Separate (plan : Plan) (d : Disk) : Prop extends plan.StagesApart d where
  writes : (plan.writes.map fun w => d.place w.path).Nodup
  sources : (plan.renames.map fun r => d.place r.source).Nodup
  files : ∀ r ∈ plan.renames, ∃ c, d.at? (d.place r.source) = some (.file c)
  targets : (plan.renames.map fun r => d.place r.target).Nodup
  targetsNotSources : ∀ r ∈ plan.renames, ∀ r' ∈ plan.renames, d.place r.target ≠ d.place r'.source
  targetsNotWrites : ∀ r ∈ plan.renames, ∀ w ∈ plan.writes, d.place r.target ≠ d.place w.path

/-- What a plan makes of a disk. -/
structure Plan.Makes (plan : Plan) (d d' : Disk) : Prop where
  here : d'.here = d.here
  writes : ∀ w ∈ plan.writes, d'.at? (d.place w.path) = some (.file (.text w.content))
  targets : ∀ r ∈ plan.renames, d'.at? (d.place r.target) = d.at? (d.place r.source)
  sources : ∀ r ∈ plan.renames, (∀ w ∈ plan.writes, d.place r.source ≠ d.place w.path) →
    d'.at? (d.place r.source) = none
  temporaries : ∀ w ∈ plan.writes, d'.at? (d.place (temporaryOf w.path)) = none
  /-- Elsewhere there is only a new directory above a file that was written. -/
  elsewhere : ∀ l, (∀ w ∈ plan.writes, l ≠ d.place w.path ∧ l ≠ d.place (temporaryOf w.path)) →
    (∀ r ∈ plan.renames, l ≠ d.place r.source ∧ l ≠ d.place r.target) →
    d'.at? l = d.at? l ∨ d.at? l = none ∧ d'.at? l = some .directory ∧
      ∃ w ∈ plan.writes, ∃ p : FilePath, p.IsAbove w.path ∧ l = d.place p

variable {plan : Plan} {d d₁ d₂ : Disk} {s t : Session} {l : Location}

/-- A plan that was staged, and then committed. -/
structure Plan.Committed (plan : Plan) (d d₁ d₂ : Disk) : Prop where
  lays : LaysAll plan.writes d d₁
  moved : Moved d₁ (plan.renames ++ plan.writes.map (·.placing)) d₁ d₂

theorem run_apply_eq_ok {effects : List Effect}
    (hfiles : ∀ r ∈ plan.renames, ∃ c, s.disk.view (s.disk.place r.source) = some (.file c))
    (h : (apply plan false).run s = (.ok effects, t)) :
    effects = plan.renames.map (fun r => .renamed r.source r.target) ++
      plan.writes.map (fun w => .written w.path) ∧ ∃ d₁, plan.Committed s.disk d₁ t.disk := by
  rw [apply_false] at h
  obtain ⟨fs, s₁, hstage, h⟩ := Work.run_bind_eq_ok h
  obtain ⟨journal, s₂, hcommit, h⟩ := Work.run_bind_eq_ok h
  obtain ⟨heffects, rfl⟩ := Prod.mk.inj h
  obtain rfl := Except.ok.inj heffects
  obtain ⟨hplacing, hlays⟩ := run_stageAll_eq_ok hstage
  rw [List.map_nil, List.nil_append] at hplacing
  have hgrows := hlays.grows
  have hstaged : ∀ f ∈ fs, ∃ w ∈ plan.writes, f.path = w.path ∧ f.temporary = temporaryOf w.path := by
    intro f hf
    have hmem : f.placing ∈ plan.writes.map (·.placing) := hplacing ▸ List.mem_map_of_mem hf
    obtain ⟨w, hw, hwf⟩ := List.mem_map.mp hmem
    obtain ⟨htemporary, hpath⟩ := Rename.mk.inj hwf
    exact ⟨w, hw, hpath.symm, htemporary.symm⟩
  have hrs : ∀ r ∈ plan.renames, s₁.disk.view (s₁.disk.place r.source) ≠ some .directory := by
    intro r hr
    obtain ⟨c, hc⟩ := hfiles r hr
    obtain ⟨c', hc'⟩ := hgrows.file hc
    rw [← hgrows.place, hc']
    simp
  have hfs : ∀ f ∈ fs, s₁.disk.Reaches (temporaryOf f.path) ∧
      s₁.disk.view (s₁.disk.place f.temporary) ≠ some .directory := by
    intro f hf
    obtain ⟨w, hw, hpath, htemporary⟩ := hstaged f hf
    obtain ⟨c, hc⟩ := hlays.view_file hw
    rw [hpath, htemporary, ← hgrows.place, hc]
    exact ⟨hlays.reaches hw, by simp⟩
  obtain hcommit | ⟨i, u, _, hrestore⟩ := Work.run_rescue_eq_ok hcommit
  · obtain ⟨rfl, hmoved⟩ := run_commit_eq_ok (.refl s₁.disk) hrs hfs hcommit
    rw [hplacing] at hmoved
    refine ⟨?_, s₁.disk, hlays, hmoved⟩
    have hrenamed : (plan.renames.map (·.step)).map Step.effect =
        plan.renames.map fun r => .renamed r.source r.target := List.map_map
    have hwritten : (fs.map (·.step)).map Step.effect =
        (fs.map (·.placing)).map fun r => .written r.target := by
      rw [List.map_map, List.map_map]
      rfl
    rw [List.map_append, hrenamed, hwritten, hplacing, List.map_map]
    rfl
  · obtain ⟨t', hfail, _⟩ := @run_restore (List Step) fs i u
    simp [hfail] at hrestore

/-- The moves that put the staged files in their places. -/
def Plan.placings (plan : Plan) (d : Disk) : List Move :=
  (plan.writes.map (·.placing)).map (·.move d)

theorem fst_placings (plan : Plan) (d : Disk) :
    (plan.placings d).map Prod.fst = temporaryPlaces d plan.writes := by
  simp only [Plan.placings, List.map_map]
  rfl

theorem snd_placings (plan : Plan) (d : Disk) :
    (plan.placings d).map Prod.snd = plan.writePlaces d := by
  simp only [Plan.placings, List.map_map]
  rfl

namespace Plan.Committed

variable (h : plan.Committed d d₁ d₂)
include h

theorem here : d₂.here = d.here :=
  h.moved.directories.here.symm.trans h.lays.grows.here

theorem move : Rename.move d₁ = Rename.move d := by
  funext r
  simp only [Rename.move, h.lays.grows.place]

theorem view :
    d₂.view = (d₁.view.moveAll (plan.renames.map (·.move d))).moveAll (plan.placings d) := by
  rw [h.moved.view, List.map_append, View.moveAll_append, h.move]
  rfl

theorem allows : d₁.view.Allows (plan.renames.map (·.move d) ++ plan.placings d) := by
  have hallows := h.moved.allows
  rw [List.map_append, h.move] at hallows
  exact hallows

theorem endsInName {w : FileWrite} (hw : w ∈ plan.writes) : w.path.EndsInName := by
  have hm := h.moved.movable w.placing (List.mem_append_right _ (List.mem_map_of_mem hw))
  exact hm.target.endsInName hm.targetFile

theorem nodup_temporaryPlaces_iff :
    (temporaryPlaces d plan.writes).Nodup ↔ (plan.writePlaces d).Nodup := by
  unfold temporaryPlaces Plan.writePlaces List.Nodup
  rw [List.pairwise_map, List.pairwise_map]
  constructor <;> intro hp <;> refine List.Pairwise.imp_of_mem (fun hw hw' hne heq => hne ?_) hp
  · exact (place_temporaryOf_inj (h.endsInName hw) (h.endsInName hw')).mpr heq
  · exact (place_temporaryOf_inj (h.endsInName hw) (h.endsInName hw')).mp heq

/-- Files that were written have places of their own if none was staged at the place of one. -/
theorem nodup_writePlaces (hs : plan.StagesApart d) : (plan.writePlaces d).Nodup := by
  rw [← h.nodup_temporaryPlaces_iff, ← fst_placings]
  refine h.allows.rest.nodup fun l hl hl' => ?_
  rw [fst_placings, mem_temporaryPlaces] at hl
  rw [snd_placings, mem_writePlaces] at hl'
  obtain ⟨w, hw, rfl⟩ := hl
  obtain ⟨w', hw', heq⟩ := hl'
  exact hs.writesApart w hw w' hw' heq.symm

/-- A file that is written holds its text if the temporary places are not used for anything else. -/
theorem view_write (hs : plan.StagesApart d) (hwrites : (plan.writePlaces d).Nodup)
    {w : FileWrite} (hw : w ∈ plan.writes) :
    d₂.view (d.place w.path) = some (.file (.text w.content)) := by
  have htemporaries := h.nodup_temporaryPlaces_iff.mpr hwrites
  have hmem : (d.place (temporaryOf w.path), d.place w.path) ∈ plan.placings d :=
    List.mem_map.mpr ⟨w.placing, List.mem_map_of_mem hw, rfl⟩
  have hnotWritten : d.place (temporaryOf w.path) ∉ (plan.placings d).map Prod.snd := by
    rw [snd_placings, mem_writePlaces]
    rintro ⟨w', hw', heq⟩
    exact hs.writesApart w hw w' hw' heq.symm
  have hnotStaged : d.place w.path ∉ (plan.placings d).map Prod.fst := by
    rw [fst_placings, mem_temporaryPlaces]
    rintro ⟨w', hw', heq⟩
    exact hs.writesApart w' hw' w hw heq
  have hnotSource : d.place (temporaryOf w.path) ∉ (plan.renames.map (·.move d)).map Prod.fst := by
    rw [mem_sources]
    rintro ⟨r, hr, heq⟩
    exact hs.sourcesApart w hw r hr heq.symm
  have hnotTarget : d.place (temporaryOf w.path) ∉ (plan.renames.map (·.move d)).map Prod.snd := by
    rw [mem_targets]
    rintro ⟨r, hr, heq⟩
    exact hs.targetsApart w hw r hr heq.symm
  rw [h.view, View.moveAll_target (fst_placings plan d ▸ htemporaries)
    (snd_placings plan d ▸ hwrites) hmem hnotWritten hnotStaged,
    View.moveAll_of_not_mem hnotSource hnotTarget, h.lays.view_content htemporaries hw]

/-- What no file is written over or staged at is as the moves aside leave it. -/
theorem view_of_not_touches {l : Location} (hl : ¬ plan.Touches d l) :
    d₂.view l = d₁.view.moveAll (plan.renames.map (·.move d)) l := by
  rw [h.view, View.moveAll_of_not_mem]
  · rw [fst_placings]
    exact fun hmem => hl (.inl hmem)
  · rw [snd_placings]
    exact fun hmem => hl (.inr hmem)

end Plan.Committed

namespace Plan.Separate

variable (hs : plan.Separate d) {r : Rename}
include hs

theorem not_staged_source (hr : r ∈ plan.renames) :
    d.place r.source ∉ temporaryPlaces d plan.writes := by
  rw [mem_temporaryPlaces]
  rintro ⟨w, hw, heq⟩
  exact hs.sourcesApart w hw r hr heq

theorem source_not_target (hr : r ∈ plan.renames) :
    d.place r.source ∉ (plan.renames.map (·.move d)).map Prod.snd := by
  rw [mem_targets]
  rintro ⟨r', hr', heq⟩
  exact hs.targetsNotSources r' hr' r hr heq

/-- What moves aside arrives. -/
theorem moveAll_target (hr : r ∈ plan.renames) (v : View) :
    v.moveAll (plan.renames.map (·.move d)) (d.place r.target) = v (d.place r.source) := by
  have hnotSource : d.place r.target ∉ (plan.renames.map (·.move d)).map Prod.fst := by
    rw [mem_sources]
    rintro ⟨r', hr', heq⟩
    exact hs.targetsNotSources r hr r' hr' heq.symm
  have hdistinct : ((plan.renames.map (·.move d)).map Prod.fst).Nodup := by
    rw [List.map_map]
    exact hs.sources
  have hdistinct' : ((plan.renames.map (·.move d)).map Prod.snd).Nodup := by
    rw [List.map_map]
    exact hs.targets
  exact View.moveAll_target hdistinct hdistinct' (List.mem_map_of_mem hr) (hs.source_not_target hr)
    hnotSource

theorem makes (h : plan.Committed d d₁ d₂) : plan.Makes d d₂ where
  here := h.here
  writes _ hw := h.view_write hs.toStagesApart hs.writes hw
  targets r hr := by
    obtain ⟨c, hc⟩ := hs.files r hr
    refine (h.view_of_not_touches (hs.not_touches_target hr (hs.targetsNotWrites r hr))).trans ?_
    rw [hs.moveAll_target hr]
    exact (h.lays.grows.view_file (hs.not_staged_source hr) hc).trans hc.symm
  sources r hr hnot := by
    have htouches : ¬ plan.Touches d (d.place r.source) := by
      rintro (hl | hl)
      · exact hs.not_staged_source hr hl
      · obtain ⟨w, hw, heq⟩ := mem_writePlaces.mp hl
        exact hnot w hw heq.symm
    refine (h.view_of_not_touches htouches).trans ?_
    exact View.moveAll_source (mem_sources.mpr ⟨r, hr, rfl⟩) (hs.source_not_target hr)
  temporaries w hw := by
    have hnot : d.place (temporaryOf w.path) ∉ (plan.placings d).map Prod.snd := by
      rw [snd_placings, mem_writePlaces]
      rintro ⟨w', hw', heq⟩
      exact hs.writesApart w hw w' hw' heq.symm
    refine (congrFun h.view _).trans (View.moveAll_source ?_ hnot)
    rw [fst_placings, mem_temporaryPlaces]
    exact ⟨w, hw, rfl⟩
  elsewhere l hwrites hrenames := by
    have hstaged : l ∉ temporaryPlaces d plan.writes := by
      rw [mem_temporaryPlaces]
      rintro ⟨w, hw, rfl⟩
      exact (hwrites w hw).2 rfl
    have htouches : ¬ plan.Touches d l := by
      rintro (hl | hl)
      · exact hstaged hl
      · obtain ⟨w, hw, rfl⟩ := mem_writePlaces.mp hl
        exact (hwrites w hw).1 rfl
    have hview : d₂.view l = d₁.view l := by
      rw [h.view_of_not_touches htouches, View.moveAll_of_not_mem]
      · rw [mem_sources]
        rintro ⟨r, hr, rfl⟩
        exact (hrenames r hr).1 rfl
      · rw [mem_targets]
        rintro ⟨r, hr, rfl⟩
        exact (hrenames r hr).2 rfl
    rcases h.lays.grows.view l hstaged with hsame | ⟨hnone, hdirectory, w, hw, p, hp, hl⟩
    · exact .inl (hview.trans hsame)
    · exact .inr ⟨hnone, hview.trans hdirectory, w, hw, p,
        isAbove_of_temporaryOf (h.endsInName hw) hp, hl⟩

end Plan.Separate

/-- What a dry run says of an effect. -/
def Effect.foretold : Effect → Effect
  | renamed source target => .wouldRename source target
  | written path => .wouldWrite path
  | e => e

theorem run_announce {ε : Type} (es : List Effect) (s : Session) :
    ∃ t, (announce es : Work ε Unit).run s = (.ok (), t) ∧ t.disk = s.disk := by
  induction es generalizing s with
  | nil => exact ⟨s, rfl, rfl⟩
  | cons e es ih =>
    obtain ⟨t, hrun, hdisk⟩ := ih { s with lines := s.lines ++ [⟨.info, e.foreseenText⟩] }
    refine ⟨t, ?_, hdisk⟩
    unfold announce
    rw [Work.run_bind_of_ok (Work.run_say ..), hrun]

theorem run_dry (plan : Plan) (s : Session) :
    ∃ t, (apply plan true).run s = (.ok (foreseen plan), t) ∧ t.disk = s.disk := by
  obtain ⟨t, hrun, hdisk⟩ := @run_announce MigrationError (foreseen plan) s
  refine ⟨t, ?_, hdisk⟩
  rw [apply_true, Work.run_bind_of_ok hrun]
  rfl

/-- A plan that is applied makes of a disk what it says and nothing else, and a dry run changes
nothing and foretells each effect. -/
theorem run_apply_makes {effects : List Effect} (hs : plan.Separate s.disk)
    (h : (apply plan false).run s = (.ok effects, t)) :
    plan.Makes s.disk t.disk ∧ ∀ s', ∃ t',
      (apply plan true).run s' = (.ok (effects.map Effect.foretold), t') ∧ t'.disk = s'.disk := by
  obtain ⟨rfl, d₁, hcommitted⟩ := run_apply_eq_ok hs.files h
  refine ⟨hs.makes hcommitted, fun s' => ?_⟩
  obtain ⟨t', hrun, hdisk⟩ := run_dry plan s'
  refine ⟨t', ?_, hdisk⟩
  rw [hrun, foreseen, List.map_append, List.map_map, List.map_map]
  rfl

/-- One file moves aside and gets a new text, and another one gets a directory of its own. -/
def newDirectory : Plan where
  root := ⟨""⟩
  migrated := []
  skipped := []
  renames := [⟨⟨"a"⟩, ⟨"a.old"⟩⟩]
  writes := [⟨⟨"a"⟩, "new a"⟩, ⟨⟨"b/c"⟩, "new c"⟩]

def oneFile : Disk :=
  ⟨.directory [("a", .file (.text "old a"))], []⟩

theorem separate_newDirectory : newDirectory.Separate oneFile where
  sourcesApart := by decide
  targetsApart := by decide
  writesApart := by decide
  writes := by decide
  sources := by decide
  files := by
    intro r hr
    obtain rfl := List.mem_singleton.mp hr
    exact ⟨.text "old a", rfl⟩
  targets := by decide
  targetsNotSources := by decide
  targetsNotWrites := by decide

theorem run_apply_makes_newDirectory : ∃ effects t,
    (apply newDirectory false).run (.start oneFile) = (.ok effects, t) ∧
      newDirectory.Makes oneFile t.disk ∧ ∀ s', ∃ t',
        (apply newDirectory true).run s' = (.ok (effects.map Effect.foretold), t') ∧
          t'.disk = s'.disk := by
  obtain ⟨effects, t, hrun⟩ : ∃ effects t,
      (apply newDirectory false).run (.start oneFile) = (.ok effects, t) := ⟨_, _, rfl⟩
  have hseparate : newDirectory.Separate (Session.start oneFile).disk := separate_newDirectory
  exact ⟨effects, t, hrun, run_apply_makes hseparate hrun⟩

end Workyard.Migration
