import Workyard.Proofs.Migration.Completion
import Workyard.Proofs.Migration.Planned
import Workyard.Proofs.Webpack.LegacyName

/-!
# Configs

The places of the configs that are migrated and of the names that they move to. The names of
moved configs are never those of project files or of staged files, so a config can only be lost
to another one.
-/

namespace Workyard.Migration

set_option autoImplicit false

open Disk FilePath

variable {plan : Plan} {d d₁ d₂ : Disk} {m m' : MigratedTarget} {w : FileWrite} {l : Location}

/-- A target's config is kept where it was moved to, and the new one is in its place. -/
structure Plan.Keeps (plan : Plan) (d d' : Disk) (m : MigratedTarget) : Prop where
  source : ∃ c, d.at? (d.place m.webpackConfig) = some (.file c) ∧
    d'.at? (d.place m.legacyConfig) = some (.file c)
  config : ∃ content, ⟨m.webpackConfig, content⟩ ∈ plan.writes ∧
    d'.at? (d.place m.webpackConfig) = some (.file (.text content))

/-- No config moves onto another one, and no file is staged at the place of a config. -/
structure Plan.ConfigsApart (plan : Plan) (d : Disk) : Prop where
  legacy : ∀ m ∈ plan.migrated, ∀ m' ∈ plan.migrated,
    d.place m.legacyConfig ≠ d.place m'.webpackConfig
  temporary : ∀ w ∈ plan.writes, ∀ m ∈ plan.migrated,
    d.place (temporaryOf w.path) ≠ d.place m.webpackConfig

/-- A config is gone, or where one moved to there is the new one of another target. -/
def Plan.Loses (plan : Plan) (d d' : Disk) : Prop :=
  (∃ m ∈ plan.migrated, d'.at? (d.place m.webpackConfig) = none) ∨
    ∃ m ∈ plan.migrated, ∃ m' ∈ plan.migrated, ∃ content,
      d.place m.legacyConfig = d.place m'.webpackConfig ∧
        ⟨m'.webpackConfig, content⟩ ∈ plan.writes ∧
          d'.at? (d.place m.legacyConfig) = some (.file (.text content))

theorem exists_first {α : Type} {p : α → Prop} {xs : List α} (h : ∃ x ∈ xs, p x) :
    ∃ before x after, xs = before ++ x :: after ∧ p x ∧ ∀ y ∈ before, ¬ p y := by
  classical
  obtain ⟨y, hy, hpy⟩ := h
  obtain ⟨x, hx⟩ : ∃ x, xs.find? (p ·) = some x :=
    Option.isSome_iff_exists.mp (List.find?_isSome.mpr ⟨y, hy, by simpa using hpy⟩)
  obtain ⟨hpx, before, after, heq, hbefore⟩ := List.find?_eq_some_iff_append.mp hx
  exact ⟨before, x, after, heq, by simpa using hpx, fun z hz => by simpa using hbefore z hz⟩

theorem place_temporaryOf_ne {p : FilePath} (hp : p.EndsInName) :
    d.place (temporaryOf p) ≠ d.place p := by
  rw [place_temporaryOf (text_ne_of_endsInName hp), place_of_endsInName hp]
  intro heq
  have hname := congrArg String.length (List.append_singleton_inj.mp heq).2
  simp at hname

theorem exists_place_temporaryOf (d : Disk) (p : FilePath) :
    ∃ l cs, d.place (temporaryOf p) = l ++ [String.ofList (cs ++ ".conduit.tmp".toList)] :=
  ⟨_, _, by rw [place_of_endsInName (temporaryOf_endsInName p), lastSegment_temporaryOf]⟩

theorem isName_projectFile : IsName Workspace.projectFile := by decide

theorem place_projectFile (d : Disk) (q : FilePath) :
    d.place (q.child Workspace.projectFile) = d.place q ++ ["project.json"] :=
  place_child isName_projectFile d q

theorem place_temporaryOf_ne_projectFile (p q : FilePath) :
    d.place (temporaryOf p) ≠ d.place (q.child Workspace.projectFile) := by
  obtain ⟨l, cs, hplace⟩ := exists_place_temporaryOf d p
  rw [hplace, place_projectFile]
  intro heq
  have hname := (List.append_singleton_inj.mp heq).2
  have hlast := congrArg (fun s : String => s.toList.getLast?) hname
  simp [List.getLast?_append] at hlast

namespace Planned

variable (h : Planned d plan)
include h

theorem view_config (hm : m ∈ plan.migrated) :
    ∃ c, d.view (d.place m.webpackConfig) = some (.file c) :=
  (view_of_isFile (h.isFile m hm)).2

theorem endsInName (hm : m ∈ plan.migrated) : m.webpackConfig.EndsInName := by
  obtain ⟨hreaches, c, hc⟩ := view_of_isFile (h.isFile m hm)
  refine hreaches.endsInName (?_ : d.view _ ≠ some .directory)
  simp [hc]

theorem mem_renames {r : Rename} : r ∈ plan.renames ↔
    ∃ m ∈ plan.migrated, ⟨m.webpackConfig, m.legacyConfig⟩ = r := by
  rw [h.renames, List.mem_map]

/-- What is written is a project file or a new config. -/
theorem write_cases (hw : w ∈ plan.writes) :
    (∃ q : FilePath, w.path = q.child Workspace.projectFile) ∨
      ∃ m ∈ plan.migrated, w.path = m.webpackConfig := by
  obtain ⟨projectFiles, configs, hwrites, hpaths, hfiles⟩ := h.writes
  rw [hwrites] at hw
  rcases List.mem_append.mp hw with hw | hw
  · exact .inl (hfiles w hw)
  · have hpath : w.path ∈ configs.map (·.path) := List.mem_map_of_mem hw
    rw [hpaths] at hpath
    obtain ⟨m, hm, heq⟩ := List.mem_map.mp hpath
    exact .inr ⟨m, hm, heq.symm⟩

theorem exists_write (hm : m ∈ plan.migrated) :
    ∃ content, ⟨m.webpackConfig, content⟩ ∈ plan.writes := by
  obtain ⟨projectFiles, configs, hwrites, hpaths, _⟩ := h.writes
  have hpath : m.webpackConfig ∈ configs.map (·.path) := hpaths ▸ List.mem_map_of_mem hm
  obtain ⟨⟨path, content⟩, hw, rfl⟩ := List.mem_map.mp hpath
  exact ⟨content, hwrites ▸ List.mem_append_right _ hw⟩

/-- A config moves to another name in its directory. -/
theorem place_legacyConfig (hm : m ∈ plan.migrated) :
    ∃ above name, IsName name ∧ d.place m.webpackConfig = above ++ [name] ∧
      d.place m.legacyConfig = above ++ [Webpack.legacyFileName name] := by
  have hends := h.endsInName hm
  have hname := isName_of_endsInName hends
  refine ⟨d.above m.webpackConfig, _, hname, place_of_endsInName hends, ?_⟩
  rw [h.legacy m hm, fileName?_of_endsInName hends, Option.getD_some,
    place_withFileName hends (Webpack.isName_legacyFileName hname)]

theorem place_config_of_legacyConfig (hm : m ∈ plan.migrated) (hm' : m' ∈ plan.migrated)
    (heq : d.place m.legacyConfig = d.place m'.legacyConfig) :
    d.place m.webpackConfig = d.place m'.webpackConfig := by
  obtain ⟨above, name, hname, hconfig, hlegacy⟩ := h.place_legacyConfig hm
  obtain ⟨above', name', hname', hconfig', hlegacy'⟩ := h.place_legacyConfig hm'
  rw [hlegacy, hlegacy'] at heq
  obtain ⟨rfl, hnames⟩ := List.append_singleton_inj.mp heq
  rw [hconfig, hconfig', Webpack.legacyFileName_inj hname hname' hnames]

theorem place_temporaryOf_ne_legacyConfig (hm : m ∈ plan.migrated) (p : FilePath) :
    d.place (temporaryOf p) ≠ d.place m.legacyConfig := by
  obtain ⟨l, cs, hplace⟩ := exists_place_temporaryOf d p
  obtain ⟨above, name, hname, _, hlegacy⟩ := h.place_legacyConfig hm
  rw [hplace, hlegacy]
  intro heq
  have hchars := congrArg String.toList (List.append_singleton_inj.mp heq).2
  rw [String.toList_ofList, Webpack.toList_legacyFileName hname] at hchars
  exact Webpack.legacyCharacters_ne_temporary _ _ hchars.symm

theorem place_legacyConfig_ne_projectFile (hm : m ∈ plan.migrated) (q : FilePath) :
    d.place m.legacyConfig ≠ d.place (q.child Workspace.projectFile) := by
  obtain ⟨above, name, hname, _, hlegacy⟩ := h.place_legacyConfig hm
  rw [hlegacy, place_projectFile]
  intro heq
  have hchars := congrArg String.toList (List.append_singleton_inj.mp heq).2
  rw [Webpack.toList_legacyFileName hname] at hchars
  exact Webpack.legacyCharacters_ne_projectFile _ hchars

/-- Only a config can stand in the way of staged files. -/
theorem stagesApart (htemporary : ∀ w ∈ plan.writes, ∀ m ∈ plan.migrated,
    d.place (temporaryOf w.path) ≠ d.place m.webpackConfig) : plan.StagesApart d where
  sourcesApart w hw r hr := by
    obtain ⟨m, hm, rfl⟩ := h.mem_renames.mp hr
    exact htemporary w hw m hm
  targetsApart w _ r hr := by
    obtain ⟨m, hm, rfl⟩ := h.mem_renames.mp hr
    exact h.place_temporaryOf_ne_legacyConfig hm w.path
  writesApart w hw w' hw' := by
    rcases h.write_cases hw' with ⟨q, hq⟩ | ⟨m, hm, hpath⟩
    · rw [hq]
      exact place_temporaryOf_ne_projectFile _ _
    · rw [hpath]
      exact htemporary w hw m hm

theorem nodup_sources (ha : plan.ConfigsApart d) (hc : plan.Committed d d₁ d₂) :
    (plan.renames.map fun r => d.place r.source).Nodup := by
  have hnodup := hc.allows.of_append.nodup fun l hl hl' => by
    rw [mem_sources] at hl
    rw [mem_targets] at hl'
    obtain ⟨r, hr, rfl⟩ := hl
    obtain ⟨r', hr', heq⟩ := hl'
    obtain ⟨m, hm, rfl⟩ := h.mem_renames.mp hr
    obtain ⟨m', hm', rfl⟩ := h.mem_renames.mp hr'
    exact ha.legacy m' hm' m hm heq
  rw [List.map_map] at hnodup
  exact hnodup

/-- Configs that are apart make a plan whose places are separate. -/
theorem separate (ha : plan.ConfigsApart d) (hc : plan.Committed d d₁ d₂) : plan.Separate d where
  toStagesApart := h.stagesApart ha.temporary
  writes := hc.nodup_writePlaces (h.stagesApart ha.temporary)
  sources := h.nodup_sources ha hc
  files r hr := by
    obtain ⟨m, hm, rfl⟩ := h.mem_renames.mp hr
    exact h.view_config hm
  targets := by
    have hsources := h.nodup_sources ha hc
    unfold List.Nodup at hsources ⊢
    rw [List.pairwise_map] at hsources ⊢
    refine List.Pairwise.imp_of_mem (fun hr hr' hne heq => hne ?_) hsources
    obtain ⟨m, hm, rfl⟩ := h.mem_renames.mp hr
    obtain ⟨m', hm', rfl⟩ := h.mem_renames.mp hr'
    exact h.place_config_of_legacyConfig hm hm' heq
  targetsNotSources r hr r' hr' := by
    obtain ⟨m, hm, rfl⟩ := h.mem_renames.mp hr
    obtain ⟨m', hm', rfl⟩ := h.mem_renames.mp hr'
    exact ha.legacy m hm m' hm'
  targetsNotWrites r hr w hw := by
    obtain ⟨m, hm, rfl⟩ := h.mem_renames.mp hr
    rcases h.write_cases hw with ⟨q, hq⟩ | ⟨m', hm', hpath⟩
    · rw [hq]
      exact h.place_legacyConfig_ne_projectFile hm q
    · rw [hpath]
      exact ha.legacy m hm m' hm'

theorem keeps (ha : plan.ConfigsApart d) (hc : plan.Committed d d₁ d₂) (hm : m ∈ plan.migrated) :
    plan.Keeps d d₂ m := by
  have hmakes := (h.separate ha hc).makes hc
  obtain ⟨c, hview⟩ := h.view_config hm
  obtain ⟨content, hw⟩ := h.exists_write hm
  have hr : ⟨m.webpackConfig, m.legacyConfig⟩ ∈ plan.renames := h.mem_renames.mpr ⟨m, hm, rfl⟩
  have hlegacy := hmakes.targets ⟨m.webpackConfig, m.legacyConfig⟩ hr
  have hconfig := hmakes.writes ⟨m.webpackConfig, content⟩ hw
  dsimp only at hlegacy hconfig
  exact ⟨⟨c, hview, hlegacy.trans hview⟩, content, hw, hconfig⟩

/-- Nothing is at the place of a config when the configs have moved aside. -/
theorem view_config_aside {v : View} (hm : m ∈ plan.migrated)
    (hlegacy : ∀ m' ∈ plan.migrated, d.place m'.legacyConfig ≠ d.place m.webpackConfig) :
    v.moveAll (plan.renames.map (·.move d)) (d.place m.webpackConfig) = none := by
  have hr : ⟨m.webpackConfig, m.legacyConfig⟩ ∈ plan.renames := h.mem_renames.mpr ⟨m, hm, rfl⟩
  refine View.moveAll_source (mem_sources.mpr ⟨_, hr, rfl⟩) ?_
  rw [mem_targets]
  rintro ⟨r, hr, hplace⟩
  obtain ⟨m', hm', rfl⟩ := h.mem_renames.mp hr
  exact hlegacy m' hm' hplace

/-- If files are staged at the places of configs, the first of them takes the new config along
when it comes to its own place. That one was staged elsewhere, and came before. -/
theorem exists_first_absent (hc : plan.Committed d d₁ d₂) (hw : w ∈ plan.writes)
    (hm : m ∈ plan.migrated) (heq : d.place (temporaryOf w.path) = d.place m.webpackConfig) :
    ∃ m ∈ plan.migrated, d₂.view (d.place m.webpackConfig) = none ∧
      ∃ v ∈ plan.writes, d.place v.path = d.place m.webpackConfig ∧
        ∀ m' ∈ plan.migrated, d.place (temporaryOf v.path) ≠ d.place m'.webpackConfig := by
  have hstaged : ∃ w ∈ plan.writes, ∃ m ∈ plan.migrated,
      d.place (temporaryOf w.path) = d.place m.webpackConfig := ⟨w, hw, m, hm, heq⟩
  obtain ⟨before, w, after, hwrites, ⟨m, hm, heq⟩, hfirst⟩ := exists_first hstaged
  have hw : w ∈ plan.writes := hwrites ▸ List.mem_append_right _ List.mem_cons_self
  have hbefore : ∀ v ∈ before, v ∈ plan.writes := fun v hv => hwrites ▸ List.mem_append_left _ hv
  have hsplit : plan.placings d = (before.map (·.placing)).map (·.move d) ++
      (d.place m.webpackConfig, d.place w.path) :: (after.map (·.placing)).map (·.move d) := by
    rw [← heq]
    simp only [Plan.placings, hwrites, List.map_append, List.map_cons]
    rfl
  have hempty := h.view_config_aside (v := d₁.view) hm fun m' hm' hplace =>
    h.place_temporaryOf_ne_legacyConfig hm' w.path (heq.trans hplace.symm)
  have hallows := hsplit ▸ hc.allows.rest
  refine ⟨m, hm, ?_, ?_⟩
  · rw [hc.view, hsplit]
    refine View.moveAll_passing hallows hempty ?_ ?_ ?_
    · rw [← heq]
      exact place_temporaryOf_ne (hc.endsInName hw)
    · intro n hn n' hn' hto hto'
      simp only [List.map_map, List.mem_map, Function.comp_apply] at hn hn'
      obtain ⟨v, hv, rfl⟩ := hn
      obtain ⟨v', hv', rfl⟩ := hn'
      have hv' : v' ∈ plan.writes :=
        hwrites ▸ List.mem_append_right _ (List.mem_cons_of_mem _ hv')
      exact (place_temporaryOf_inj (hc.endsInName (hbefore v hv)) (hc.endsInName hv')).mpr
        (hto.trans hto'.symm)
    · intro n hn hmem
      simp only [List.map_map, List.mem_map, Function.comp_apply] at hn
      obtain ⟨v, hv, rfl⟩ := hn
      rw [← hsplit, snd_placings, mem_writePlaces] at hmem
      obtain ⟨w', hw', hplace⟩ := hmem
      rcases h.write_cases hw' with ⟨q, hq⟩ | ⟨m', hm', hpath⟩
      · rw [hq] at hplace
        exact place_temporaryOf_ne_projectFile _ _ hplace.symm
      · rw [hpath] at hplace
        exact hfirst v hv ⟨m', hm', hplace.symm⟩
  · -- What stands there when it is taken away has come there with an earlier write.
    have hcame : d.place m.webpackConfig ∈
        ((before.map (·.placing)).map (·.move d)).map Prod.snd :=
      Classical.byContradiction fun hnot =>
        hallows.rest.1 (View.moveAll_of_nothing hempty hnot)
    obtain ⟨r, hr, hplace⟩ := mem_targets.mp hcame
    obtain ⟨v, hv, rfl⟩ := List.mem_map.mp hr
    exact ⟨v, hbefore v hv, hplace, fun m' hm' heq' => hfirst v hv ⟨m', hm', heq'⟩⟩

/-- Configs that are not apart are not kept: one is gone, or where one moved to there is the new
one of another target. -/
theorem loses (ha : ¬ plan.ConfigsApart d) (hc : plan.Committed d d₁ d₂) : plan.Loses d d₂ := by
  by_cases htemporary : ∃ w ∈ plan.writes, ∃ m ∈ plan.migrated,
      d.place (temporaryOf w.path) = d.place m.webpackConfig
  · obtain ⟨w, hw, m, hm, heq⟩ := htemporary
    obtain ⟨m, hm, habsent, _⟩ := h.exists_first_absent hc hw hm heq
    exact .inl ⟨m, hm, habsent⟩
  · have htemporary : ∀ w ∈ plan.writes, ∀ m ∈ plan.migrated,
        d.place (temporaryOf w.path) ≠ d.place m.webpackConfig :=
      fun w hw m hm heq => htemporary ⟨w, hw, m, hm, heq⟩
    have hs := h.stagesApart htemporary
    by_cases hlegacy : ∃ m ∈ plan.migrated, ∃ m' ∈ plan.migrated,
        d.place m.legacyConfig = d.place m'.webpackConfig
    · obtain ⟨m, hm, m', hm', heq⟩ := hlegacy
      obtain ⟨content, hw⟩ := h.exists_write hm'
      have hview := hc.view_write hs (hc.nodup_writePlaces hs) hw
      exact .inr ⟨m, hm, m', hm', content, heq, hw, heq ▸ hview⟩
    · exact absurd ⟨fun m hm m' hm' heq => hlegacy ⟨m, hm, m', hm', heq⟩, htemporary⟩ ha

end Planned

end Workyard.Migration
