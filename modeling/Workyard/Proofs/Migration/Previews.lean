import Workyard.Migration.Preview
import Workyard.Proofs.Diff.Patching
import Workyard.Proofs.Migration.Keeping
import Workyard.Proofs.Migration.ProjectFile
import Workyard.Proofs.Migration.Restoration
import Workyard.Proofs.Text.LineEnds

/-!
# Following previews

A preview is followed by moving what it says moves, and by patching the files that it shows a
difference of. That leaves the files that applying the plan leaves, unless a new config is empty,
which a preview does not show, or something stands where a file is staged.
-/

namespace Workyard

set_option autoImplicit false

namespace Disk

/-- The same file, but for returns before its feeds, or no file in either place. -/
inductive SameFile : Option Node → Option Node → Prop
  | text {s t : String} (h : Text.SameLines s t) :
      SameFile (some (.file (.text s))) (some (.file (.text t)))
  | refl (n : Option Node) : SameFile n n
  | absent {n n' : Option Node} (hn : ∀ c, n ≠ some (.file c)) (hn' : ∀ c, n' ≠ some (.file c)) :
      SameFile n n'

def View.SameFiles (v w : View) : Prop :=
  ∀ l, SameFile (v l) (w l)

namespace SameFile

theorem exists_file {n n' : Option Node} (h : SameFile n n') :
    (∃ c, n = some (.file c)) ↔ ∃ c, n' = some (.file c) := by
  cases h with
  | text h => exact iff_of_true ⟨_, rfl⟩ ⟨_, rfl⟩
  | refl => exact Iff.rfl
  | absent hn hn' => exact iff_of_false (fun ⟨c, hc⟩ => hn c hc) fun ⟨c, hc⟩ => hn' c hc

theorem sameLines {s t : String}
    (h : SameFile (some (.file (.text s))) (some (.file (.text t)))) : Text.SameLines s t := by
  cases h with
  | text h => exact h
  | refl => exact .refl s
  | absent hn hn' => exact absurd rfl (hn _)

end SameFile

end Disk

namespace Migration

open Disk

/-! ### Following -/

/-- The text at a path after files have moved, with joined line ends; empty if there is none. -/
def textAt (d : Disk) (v : View) (p : FilePath) : String :=
  match (d.locate p).toOption.bind v with
  | some (.file (.text s)) => Text.withJoinedLineEnds s
  | _ => ""

/-- Patches the files that differences are of, and makes those that are not there. -/
def patchAll (patch : String → String → String) (d : Disk) : View → List FileDiff → View
  | v, [] => v
  | v, e :: es =>
    let text := patch (textAt d v e.path) e.diff
    patchAll patch d (v.set (d.place e.path) (some (.file (.text text)))) es

/-- What is on a disk when the files of a plan have moved aside. -/
def Plan.moved (plan : Plan) (d : Disk) : View :=
  d.view.moveAll (plan.renames.map (·.move d))

/-- What is left when the files have moved and then been patched. -/
def Plan.followed (plan : Plan) (patch : String → String → String) (d : Disk)
    (es : List FileDiff) : View :=
  patchAll patch d (plan.moved d) es

/-- Patching the old text of a file with its difference from the new one gives the new one. -/
def Plan.PatchedBy (plan : Plan) (patch : String → String → String) (d : Disk) : Prop :=
  ∀ w ∈ plan.writes, ∀ before e, contentBefore d plan w.path = .ok before →
    writeDiff? d plan w = .ok (some e) → patch before e.diff = Text.withJoinedLineEnds w.content

/-- The files of a plan are different ones, and nothing is where they move to. -/
structure Plan.FilesApart (plan : Plan) (d : Disk) : Prop where
  sources : ∀ r ∈ plan.renames, d.isFile r.source = true
  targets : ∀ r ∈ plan.renames, d.at? (d.place r.target) = none
  writes : (plan.writePlaces d).Nodup

variable {patch : String → String → String} {plan : Plan} {d d₁ d₂ : Disk} {v v' : View}
variable {w : FileWrite} {ws : List FileWrite} {es : List FileDiff} {p : FilePath} {l : Location}

theorem textAt_congr (h : v (d.place p) = v' (d.place p)) : textAt d v p = textAt d v' p := by
  unfold textAt
  cases hl : d.locate p with
  | error f => rfl
  | ok l =>
    obtain rfl := locate_eq_ok hl
    simp only [Except.toOption, Option.bind_some, h]

theorem textAt_of_nothing (h : v (d.place p) = none) : textAt d v p = "" := by
  unfold textAt
  cases hl : d.locate p with
  | error f => rfl
  | ok l =>
    obtain rfl := locate_eq_ok hl
    simp only [Except.toOption, Option.bind_some, h]

theorem reaches_of_readText {text : String} (h : d.readText p = .ok text) : d.Reaches p := by
  unfold readText entry at h
  cases hl : d.locate p with
  | error f => simp [hl] at h
  | ok l => exact reaches_of_locate hl

theorem view_of_readText_eq_ok {text : String} (h : d.readText p = .ok text) :
    d.view (d.place p) = some (.file (.text text)) := by
  rw [view_of_readText (reaches_of_readText h) (.inr ⟨text, h⟩), h]
  rfl

theorem textAt_of_ok {text : String} (h : d.readText p = .ok text) :
    textAt d d.view p = Text.withJoinedLineEnds text := by
  have hlocate : d.locate p = .ok (d.place p) := reaches_of_readText h
  simp only [textAt, hlocate, Except.toOption, Option.bind_some, view_of_readText_eq_ok h]

theorem textAt_of_notFound (h : d.readText p = .error .notFound) : textAt d d.view p = "" := by
  cases hl : d.locate p with
  | error f => simp [textAt, hl, Except.toOption]
  | ok l =>
    have hreaches := reaches_of_locate hl
    refine textAt_of_nothing ?_
    rw [view_of_readText hreaches (.inl h), h]
    rfl

/-! ### What a preview shows -/

theorem writeDiff?_eq_ok {o : Option FileDiff} (h : writeDiff? d plan w = .ok o) :
    ∃ before, contentBefore d plan w.path = .ok before ∧
      (before = Text.withJoinedLineEnds w.content ∧ o = none ∨
        before ≠ Text.withJoinedLineEnds w.content ∧ ∃ e, o = some e ∧ e.path = w.path) := by
  unfold writeDiff? at h
  split at h
  · simp at h
  · rename_i before hbefore
    refine ⟨before, hbefore, ?_⟩
    dsimp only at h
    split at h
    · rename_i hsame
      exact .inl ⟨hsame, (Except.ok.inj h).symm⟩
    · rename_i hne
      exact .inr ⟨hne, _, (Except.ok.inj h).symm, rfl⟩

theorem contentBefore_aside (h : plan.movesAside p = true) : contentBefore d plan p = .ok "" := by
  rw [contentBefore, if_pos h]

theorem contentBefore_cases {before : String} (haside : plan.movesAside p = false)
    (h : contentBefore d plan p = .ok before) :
    (∃ text, d.readText p = .ok text ∧ before = Text.withJoinedLineEnds text) ∨
      d.readText p = .error .notFound ∧ before = "" := by
  simp only [contentBefore, haside, Bool.false_eq_true, if_false] at h
  split at h
  · rename_i text htext
    exact .inl ⟨text, htext, (Except.ok.inj h).symm⟩
  · rename_i hmissing
    exact .inr ⟨hmissing, (Except.ok.inj h).symm⟩
  · simp at h

theorem writeDiffs_cons_eq_ok (h : writeDiffs d plan (w :: ws) = .ok es) :
    ∃ o rest, writeDiff? d plan w = .ok o ∧ writeDiffs d plan ws = .ok rest ∧
      es = o.toList ++ rest := by
  unfold writeDiffs at h
  split at h
  · simp at h
  · rename_i o ho
    cases hrest : writeDiffs d plan ws with
    | error e => simp [hrest, Except.map] at h
    | ok rest =>
      rw [hrest] at h
      exact ⟨o, rest, ho, rfl, (Except.ok.inj h).symm⟩

theorem diffs_eq_ok {entries : List FileDiff} (h : plan.diffs d = .ok entries) :
    ∃ es, writeDiffs d plan plan.writes = .ok es ∧
      entries = plan.renames.map (renameDiff plan.root) ++ es := by
  unfold Plan.diffs at h
  cases hes : writeDiffs d plan plan.writes with
  | error e => simp [hes, Except.map] at h
  | ok es =>
    rw [hes] at h
    exact ⟨es, rfl, (Except.ok.inj h).symm⟩

theorem exists_writeDiffs
    (h : ∀ w ∈ ws, ∃ before, contentBefore d plan w.path = .ok before) :
    ∃ es, writeDiffs d plan ws = .ok es := by
  induction ws with
  | nil => exact ⟨[], rfl⟩
  | cons w ws ih =>
    obtain ⟨⟨before, hbefore⟩, h⟩ := List.forall_mem_cons.mp h
    obtain ⟨es, hes⟩ := ih h
    obtain ⟨o, ho⟩ : ∃ o, writeDiff? d plan w = .ok o := by
      unfold writeDiff?
      rw [hbefore]
      dsimp only
      split <;> exact ⟨_, rfl⟩
    exact ⟨o.toList ++ es, by simp [writeDiffs, ho, hes, Except.map]⟩

/-- A preview fails only for a file that cannot be read. -/
theorem exists_diffs (h : ∀ w ∈ plan.writes, ∃ before, contentBefore d plan w.path = .ok before) :
    ∃ entries, plan.diffs d = .ok entries := by
  obtain ⟨es, hes⟩ := exists_writeDiffs h
  exact ⟨plan.renames.map (renameDiff plan.root) ++ es, by simp [Plan.diffs, hes, Except.map]⟩

/-- A file is patched only if a difference of it is shown. -/
theorem patchAll_of_not_mem (h : writeDiffs d plan ws = .ok es)
    (hl : ∀ w ∈ ws, d.place w.path ≠ l) : patchAll patch d v es l = v l := by
  induction ws generalizing v es with
  | nil =>
    obtain rfl := Except.ok.inj h
    rfl
  | cons w ws ih =>
    obtain ⟨o, rest, ho, hrest, rfl⟩ := writeDiffs_cons_eq_ok h
    obtain ⟨hw, hl⟩ := List.forall_mem_cons.mp hl
    obtain ⟨before, -, ⟨-, rfl⟩ | ⟨-, e, rfl, hpath⟩⟩ := writeDiff?_eq_ok ho
    · exact ih hrest hl
    · refine (ih hrest hl).trans (View.set_of_ne ?_)
      rw [hpath]
      exact hw.symm

/-- Files that are different ones are patched each on its own. -/
theorem patchAll_of_mem (h : writeDiffs d plan ws = .ok es)
    (hnodup : (ws.map fun w => d.place w.path).Nodup) (hw : w ∈ ws) :
    ∃ o, writeDiff? d plan w = .ok o ∧ patchAll patch d v es (d.place w.path) =
      match o with
      | none => v (d.place w.path)
      | some e => some (.file (.text (patch (textAt d v w.path) e.diff))) := by
  induction ws generalizing v es with
  | nil => simp at hw
  | cons w' ws ih =>
    obtain ⟨o, rest, ho, hrest, rfl⟩ := writeDiffs_cons_eq_ok h
    rw [List.map_cons, List.nodup_cons] at hnodup
    obtain ⟨hnot, hnodup⟩ := hnodup
    have happart : ∀ w ∈ ws, d.place w.path ≠ d.place w'.path :=
      fun w hw heq => hnot (heq ▸ List.mem_map_of_mem hw)
    obtain ⟨before, -, hcase⟩ := writeDiff?_eq_ok ho
    rcases List.mem_cons.mp hw with rfl | hw
    · refine ⟨o, ho, ?_⟩
      obtain ⟨-, rfl⟩ | ⟨-, e, rfl, hpath⟩ := hcase
      · exact patchAll_of_not_mem hrest happart
      · refine (patchAll_of_not_mem hrest happart).trans ?_
        rw [hpath, View.set_self]
    · obtain ⟨-, rfl⟩ | ⟨-, e, rfl, hpath⟩ := hcase
      · exact ih hrest hnodup hw
      · have hother := happart w hw
        rw [← hpath] at hother
        obtain ⟨o', ho', hview⟩ := @ih (v.set (d.place e.path)
          (some (.file (.text (patch (textAt d v e.path) e.diff))))) _ hrest hnodup hw
        refine ⟨o', ho', hview.trans ?_⟩
        rw [textAt_congr (View.set_of_ne hother), View.set_of_ne hother]

/-- Following the differences that are shown gives the new texts, if no path breaks a line. -/
theorem patchedBy_patch
    (hpaths : ∀ w ∈ plan.writes, Diff.Bare (relativeText plan.root w.path).toList) :
    plan.PatchedBy Diff.patch d := by
  intro w hw before e hbefore h
  unfold writeDiff? at h
  rw [hbefore] at h
  dsimp only at h
  split at h
  · simp at h
  · obtain rfl := Option.some.inj (Except.ok.inj h)
    have hpath := hpaths w hw
    have hname (side : String) (hside : Diff.Bare side.toList) :
        Diff.Bare (side ++ relativeText plan.root w.path).toList := by
      rw [String.toList_append]
      exact hside.append hpath
    refine Diff.patch_unified before _ ?_ (hname "b/" (by decide))
    split
    · decide
    · exact hname "a/" (by decide)

/-! ### Files that are apart -/

/-- What is written is a config, for which another one moves aside, or not empty. -/
theorem movesAside_or_ne_empty {root : FilePath} {request : Request}
    (h : (planAt d root request).result = .ok plan) (hw : w ∈ plan.writes) :
    plan.movesAside w.path = true ∨ w.content ≠ "" := by
  obtain ⟨settings, workspace, -, -, h⟩ := planAt_eq_ok h
  obtain ⟨renderer, h⟩ := plan_eq_ok h
  obtain ⟨vs, files, hrounds, rfl, -⟩ := Planner.rounds_of_run h
  rcases List.mem_append.mp hw with hfile | hconfig
  · obtain ⟨p, -, targets, hwrite⟩ := hrounds.exists_projectWrite w hfile
    obtain ⟨text, doc, -, -, -, hcontent⟩ := Planner.projectWrite_eq_ok.mp hwrite
    exact .inr (hcontent ▸ Planner.finish_ne_empty _ _)
  · have hpath := List.mem_map_of_mem (f := (·.path)) hconfig
    rw [writePaths_of_verdicts] at hpath
    obtain ⟨m, hm, hpath⟩ := List.mem_map.mp hpath
    have hmem : ⟨m.webpackConfig, m.legacyConfig⟩ ∈ vs.filterMap Verdict.rename? := by
      rw [renames_of_verdicts]
      exact List.mem_map_of_mem hm
    exact .inl (List.any_eq_true.mpr ⟨_, hmem, hpath ▸ FilePath.same_refl _⟩)

theorem Planned.of_filesApart {d₀ : Disk} (h : Planned d₀ plan) (ha : plan.FilesApart d) :
    Planned d plan :=
  { h with isFile := fun m hm => ha.sources _ (h.mem_renames.mpr ⟨m, hm, rfl⟩) }

theorem followed_of_not_write (hes : writeDiffs d plan plan.writes = .ok es)
    (hl : ∀ w ∈ plan.writes, d.place w.path ≠ l) : plan.followed patch d es l = plan.moved d l :=
  patchAll_of_not_mem hes hl

theorem moved_of_ne (hl : ∀ r ∈ plan.renames, l ≠ d.place r.source ∧ l ≠ d.place r.target) :
    plan.moved d l = d.view l := by
  refine View.moveAll_of_not_mem ?_ ?_
  · rw [mem_sources]
    rintro ⟨r, hr, rfl⟩
    exact (hl r hr).1 rfl
  · rw [mem_targets]
    rintro ⟨r, hr, rfl⟩
    exact (hl r hr).2 rfl

section Apart

variable (h : Planned d plan) (ha : plan.FilesApart d)
include h ha

theorem legacyConfig_ne {m m' : MigratedTarget} (hm : m ∈ plan.migrated)
    (hm' : m' ∈ plan.migrated) : d.place m.legacyConfig ≠ d.place m'.webpackConfig := by
  have hnone := ha.targets _ (h.mem_renames.mpr ⟨m, hm, rfl⟩)
  obtain ⟨c, hview⟩ := h.view_config hm'
  intro heq
  rw [view, ← heq, hnone] at hview
  simp at hview

theorem target_ne_write {r : Rename} (hr : r ∈ plan.renames) (hw : w ∈ plan.writes) :
    d.place r.target ≠ d.place w.path := by
  obtain ⟨m, hm, rfl⟩ := h.mem_renames.mp hr
  rcases h.write_cases hw with ⟨q, hq⟩ | ⟨m', hm', hpath⟩
  · rw [hq]
    exact h.place_legacyConfig_ne_projectFile hm q
  · rw [hpath]
    exact legacyConfig_ne h ha hm hm'

theorem configsApart_of_temporary (htemporary : ∀ w ∈ plan.writes, ∀ m ∈ plan.migrated,
    d.place (temporaryOf w.path) ≠ d.place m.webpackConfig) : plan.ConfigsApart d :=
  ⟨fun _ hm _ hm' => legacyConfig_ne h ha hm hm', htemporary⟩

theorem moved_source {r : Rename} (hr : r ∈ plan.renames) :
    plan.moved d (d.place r.source) = none := by
  obtain ⟨m, hm, rfl⟩ := h.mem_renames.mp hr
  exact h.view_config_aside hm fun m' hm' => legacyConfig_ne h ha hm' hm

/-- A file that is written stays where it is if it does not move aside by its path. -/
theorem moved_write (hw : w ∈ plan.writes) (haside : plan.movesAside w.path = false) :
    plan.moved d (d.place w.path) = d.view (d.place w.path) := by
  refine moved_of_ne fun r hr => ⟨fun heq => ?_, (target_ne_write h ha hr hw).symm⟩
  obtain ⟨m, hm, rfl⟩ := h.mem_renames.mp hr
  obtain ⟨content, hw'⟩ := h.exists_write hm
  obtain rfl := List.inj_on_of_nodup_map ha.writes hw' hw heq.symm
  have hsame : plan.movesAside m.webpackConfig = true :=
    List.any_eq_true.mpr ⟨_, hr, FilePath.same_refl _⟩
  simp [hsame] at haside

theorem textAt_moved {before : String} (hw : w ∈ plan.writes)
    (hbefore : contentBefore d plan w.path = .ok before) :
    textAt d (plan.moved d) w.path = before := by
  cases haside : plan.movesAside w.path with
  | true =>
    obtain ⟨r, hr, heq⟩ := exists_source_of_movesAside d haside
    obtain rfl : "" = before := Except.ok.inj ((contentBefore_aside haside).symm.trans hbefore)
    exact textAt_of_nothing (heq ▸ moved_source h ha hr)
  | false =>
    rw [textAt_congr (moved_write h ha hw haside)]
    obtain ⟨text, htext, rfl⟩ | ⟨hmissing, rfl⟩ := contentBefore_cases haside hbefore
    · exact textAt_of_ok htext
    · exact textAt_of_notFound hmissing

/-- A file that is written is there with its text, or missing if that is empty. -/
theorem followed_write (hpatch : plan.PatchedBy patch d)
    (hes : writeDiffs d plan plan.writes = .ok es) (hw : w ∈ plan.writes)
    (hcontent : plan.movesAside w.path = true ∨ w.content ≠ "") :
    w.content = "" ∧ plan.followed patch d es (d.place w.path) = none ∨
      w.content ≠ "" ∧ ∃ text, plan.followed patch d es (d.place w.path) =
        some (.file (.text text)) ∧ Text.SameLines text w.content := by
  obtain ⟨o, ho, hview⟩ := @patchAll_of_mem patch plan d (plan.moved d) _ _ _ hes ha.writes hw
  obtain ⟨before, hbefore, hcase⟩ := writeDiff?_eq_ok ho
  have htext := textAt_moved h ha hw hbefore
  cases haside : plan.movesAside w.path with
  | true =>
    obtain rfl : "" = before := Except.ok.inj ((contentBefore_aside haside).symm.trans hbefore)
    obtain ⟨hsame, rfl⟩ | ⟨hne, e, rfl, -⟩ := hcase
    · obtain ⟨r, hr, heq⟩ := exists_source_of_movesAside d haside
      exact .inl ⟨Text.withJoinedLineEnds_eq_empty_iff.mp hsame.symm,
        hview.trans (heq ▸ moved_source h ha hr)⟩
    · refine .inr ⟨fun hempty => hne (Text.withJoinedLineEnds_eq_empty_iff.mpr hempty).symm, _,
        hview, ?_⟩
      rw [htext, hpatch w hw _ e hbefore ho]
      exact .joined w.content
  | false =>
    have hcontent : w.content ≠ "" := hcontent.resolve_left (by simp [haside])
    refine .inr ⟨hcontent, ?_⟩
    obtain ⟨hsame, rfl⟩ | ⟨-, e, rfl, -⟩ := hcase
    · obtain ⟨text, hread, rfl⟩ | ⟨-, rfl⟩ := contentBefore_cases haside hbefore
      · refine ⟨text, ?_, .of_joined hsame⟩
        exact hview.trans ((moved_write h ha hw haside).trans (view_of_readText_eq_ok hread))
      · exact absurd (Text.withJoinedLineEnds_eq_empty_iff.mp hsame.symm) hcontent
    · refine ⟨_, hview, ?_⟩
      rw [htext, hpatch w hw _ e hbefore ho]
      exact .joined w.content

end Apart

/-! ### Following against applying -/

/-- What stood where a file was staged is gone, but not after following. -/
theorem nothing_staged (hes : writeDiffs d plan plan.writes = .ok es) (hs : plan.Separate d)
    (hc : plan.Committed d d₁ d₂)
    (hsame : (plan.followed patch d es).SameFiles d₂.view) (hw : w ∈ plan.writes) :
    d.view (d.place (temporaryOf w.path)) = none := by
  have hm := hs.makes hc
  have hfile := hsame (d.place (temporaryOf w.path))
  have hgone : d₂.view (d.place (temporaryOf w.path)) = none := hm.temporaries w hw
  have hnot : ∀ w' ∈ plan.writes, d.place w'.path ≠ d.place (temporaryOf w.path) :=
    fun w' hw' heq => hs.writesApart w hw w' hw' heq.symm
  rw [followed_of_not_write hes hnot, moved_of_ne, hgone] at hfile
  · cases hview : d.view (d.place (temporaryOf w.path)) with
    | none => rfl
    | some n =>
      cases n with
      | directory =>
        obtain ⟨c, hstaged⟩ := hc.lays.view_file hw
        rw [hc.lays.grows.directory hview] at hstaged
        simp at hstaged
      | file c =>
        rw [hview] at hfile
        obtain ⟨c', hc'⟩ := hfile.exists_file.mp ⟨c, rfl⟩
        simp at hc'
  · exact fun r hr => ⟨hs.sourcesApart w hw r hr, hs.targetsApart w hw r hr⟩

section Followed

variable (h : Planned d plan) (ha : plan.FilesApart d) (hpatch : plan.PatchedBy patch d)
variable (hes : writeDiffs d plan plan.writes = .ok es)
variable (hcontents : ∀ w ∈ plan.writes, plan.movesAside w.path = true ∨ w.content ≠ "")
include h ha hpatch hes hcontents

/-- A file that is written is missing after following only if its text is empty. -/
theorem content_of_missing (hsame : (plan.followed patch d es).SameFiles d₂.view)
    (hw : w ∈ plan.writes) (hmissing : d₂.view (d.place w.path) = none) : w.content = "" := by
  obtain ⟨hempty, -⟩ | ⟨-, text, htext, -⟩ := followed_write h ha hpatch hes hw (hcontents w hw)
  · exact hempty
  · have hfile := hsame (d.place w.path)
    rw [htext, hmissing] at hfile
    obtain ⟨c, hc⟩ := hfile.exists_file.mp ⟨_, rfl⟩
    simp at hc

/-- Following leaves no file empty that is written. -/
theorem ne_empty_of_view {text : String} (hsame : (plan.followed patch d es).SameFiles d₂.view)
    (hw : w ∈ plan.writes) (htext : d₂.view (d.place w.path) = some (.file (.text text))) :
    w.content ≠ "" ∧ text ≠ "" := by
  have hfile := hsame (d.place w.path)
  obtain ⟨-, hnone⟩ | ⟨hcontent, text', htext', hlines⟩ :=
    followed_write h ha hpatch hes hw (hcontents w hw)
  · rw [hnone, htext] at hfile
    obtain ⟨c, hc⟩ := hfile.exists_file.mpr ⟨_, rfl⟩
    simp at hc
  · rw [htext', htext] at hfile
    refine ⟨hcontent, fun hempty => hcontent ?_⟩
    exact hlines.eq_empty_iff.mp (hfile.sameLines.eq_empty_iff.mpr hempty)

/-- If a file is staged at the place of a config, then a new config goes to another's place, and
its own is left without one. -/
theorem temporary_ne_config (hc : plan.Committed d d₁ d₂)
    (hsame : (plan.followed patch d es).SameFiles d₂.view) (hw : w ∈ plan.writes)
    {m : MigratedTarget} (hm : m ∈ plan.migrated) :
    d.place (temporaryOf w.path) ≠ d.place m.webpackConfig := by
  intro heq
  obtain ⟨m, hm, habsent, v, hv, hplace, hfree⟩ := h.exists_first_absent hc hw hm heq
  have hempty : v.content = "" := by
    refine content_of_missing h ha hpatch hes hcontents hsame hv ?_
    rw [hplace, habsent]
  have hstaged : d₁.view.moveAll (plan.renames.map (·.move d)) (d.place (temporaryOf v.path)) =
      some (.file (.text v.content)) := by
    rw [View.moveAll_of_not_mem,
      hc.lays.view_content (hc.nodup_temporaryPlaces_iff.mpr ha.writes) hv]
    · rw [mem_sources]
      rintro ⟨r, hr, hplace⟩
      obtain ⟨m', hm', rfl⟩ := h.mem_renames.mp hr
      exact hfree m' hm' hplace.symm
    · rw [mem_targets]
      rintro ⟨r, hr, hplace⟩
      obtain ⟨m', hm', rfl⟩ := h.mem_renames.mp hr
      exact h.place_temporaryOf_ne_legacyConfig hm' v.path hplace.symm
  have hquiet : d.place (temporaryOf v.path) ∉ (plan.placings d).map Prod.snd := by
    rw [snd_placings, mem_writePlaces]
    rintro ⟨w', hw', hplace⟩
    rcases h.write_cases hw' with ⟨q, hq⟩ | ⟨m', hm', hpath⟩
    · rw [hq] at hplace
      exact place_temporaryOf_ne_projectFile _ _ hplace.symm
    · rw [hpath] at hplace
      exact hfree m' hm' hplace.symm
  have hdistinct : ((plan.placings d).map Prod.snd).Nodup := snd_placings plan d ▸ ha.writes
  -- The text that was staged for it has come to rest at the place of another file.
  obtain ⟨l, hl, hrests⟩ := View.moveAll_rests hdistinct hquiet
  rw [← hc.view, hstaged, hempty] at hrests
  rcases hl with rfl | hl
  · have hgone : d₂.view (d.place (temporaryOf v.path)) = none := by
      rw [hc.view]
      refine View.moveAll_source ?_ hquiet
      rw [fst_placings, mem_temporaryPlaces]
      exact ⟨v, hv, rfl⟩
    simp [hgone] at hrests
  · rw [snd_placings, mem_writePlaces] at hl
    obtain ⟨z, hz, rfl⟩ := hl
    exact (ne_empty_of_view h ha hpatch hes hcontents hsame hz hrests).2 rfl

theorem followed_makes (hs : plan.Separate d) (hm : plan.Makes d d₂)
    (hshown : ∀ w ∈ plan.writes, w.content ≠ "" ∧ d.at? (d.place (temporaryOf w.path)) = none) :
    (plan.followed patch d es).SameFiles d₂.view := by
  intro l
  by_cases hwritten : ∃ w ∈ plan.writes, d.place w.path = l
  · obtain ⟨w, hw, rfl⟩ := hwritten
    obtain ⟨hempty, -⟩ | ⟨-, text, htext, hsame⟩ :=
      followed_write h ha hpatch hes hw (hcontents w hw)
    · exact absurd hempty (hshown w hw).1
    · have hview : d₂.view (d.place w.path) = _ := hm.writes w hw
      rw [htext, hview]
      exact .text hsame
  have hnot : ∀ w ∈ plan.writes, d.place w.path ≠ l := fun w hw heq => hwritten ⟨w, hw, heq⟩
  rw [followed_of_not_write hes hnot]
  have hsource : ∀ r ∈ plan.renames, d.place r.source ≠ l := by
    rintro r hr rfl
    obtain ⟨m, hmem, rfl⟩ := h.mem_renames.mp hr
    obtain ⟨content, hw⟩ := h.exists_write hmem
    exact hnot _ hw rfl
  by_cases htarget : ∃ r ∈ plan.renames, d.place r.target = l
  · obtain ⟨r, hr, rfl⟩ := htarget
    have hview : d₂.view (d.place r.target) = _ := hm.targets r hr
    rw [Plan.moved, hs.moveAll_target hr, hview]
    exact .refl _
  have hrenames : ∀ r ∈ plan.renames, l ≠ d.place r.source ∧ l ≠ d.place r.target :=
    fun r hr => ⟨fun heq => hsource r hr heq.symm, fun heq => htarget ⟨r, hr, heq.symm⟩⟩
  rw [moved_of_ne hrenames]
  by_cases hstaged : ∃ w ∈ plan.writes, d.place (temporaryOf w.path) = l
  · obtain ⟨w, hw, rfl⟩ := hstaged
    have hview : d₂.view (d.place (temporaryOf w.path)) = none := hm.temporaries w hw
    have hbefore : d.view (d.place (temporaryOf w.path)) = none := (hshown w hw).2
    rw [hview, hbefore]
    exact .refl _
  have hwrites : ∀ w ∈ plan.writes, l ≠ d.place w.path ∧ l ≠ d.place (temporaryOf w.path) :=
    fun w hw => ⟨fun heq => hnot w hw heq.symm, fun heq => hstaged ⟨w, hw, heq.symm⟩⟩
  rcases hm.elsewhere l hwrites hrenames with hview | ⟨hnone, hdirectory, -⟩
  · have hview : d₂.view l = d.view l := hview
    rw [hview]
    exact .refl _
  · have hnone : d.view l = none := hnone
    have hdirectory : d₂.view l = some .directory := hdirectory
    rw [hnone, hdirectory]
    exact .absent (by simp) (by simp)

end Followed

/-- Following a preview leaves the files that applying the plan leaves, just when no new text is
empty and nothing is where a file is staged. -/
theorem diffs_followed_iff {d₀ : Disk} {root : FilePath} {request : Request} {s t : Session}
    {entries : List FileDiff} {effects : List Effect}
    (hplan : (planAt d₀ root request).result = .ok plan) (ha : plan.FilesApart s.disk)
    (hdiffs : plan.diffs s.disk = .ok entries)
    (happly : (apply plan false).run s = (.ok effects, t))
    (hpatch : plan.PatchedBy patch s.disk) :
    ∃ es, entries = plan.renames.map (renameDiff plan.root) ++ es ∧
      ((plan.followed patch s.disk es).SameFiles t.disk.view ↔
        ∀ w ∈ plan.writes, w.content ≠ "" ∧
          s.disk.at? (s.disk.place (temporaryOf w.path)) = none) := by
  obtain ⟨es, hes, hentries⟩ := diffs_eq_ok hdiffs
  refine ⟨es, hentries, ?_⟩
  have h := (planned_of_planAt hplan).of_filesApart ha
  have hcontents : ∀ w ∈ plan.writes, plan.movesAside w.path = true ∨ w.content ≠ "" :=
    fun w hw => movesAside_or_ne_empty hplan hw
  have hfiles : ∀ r ∈ plan.renames, ∃ c, s.disk.view (s.disk.place r.source) = some (.file c) :=
    fun r hr => (view_of_isFile (ha.sources r hr)).2
  obtain ⟨-, d₁, hc⟩ := run_apply_eq_ok hfiles happly
  constructor
  · intro hsame w hw
    have hs := h.separate (configsApart_of_temporary h ha fun w hw m hm =>
      temporary_ne_config h ha hpatch hes hcontents hc hsame hw hm) hc
    have hview : t.disk.view (s.disk.place w.path) = _ := (hs.makes hc).writes w hw
    exact ⟨(ne_empty_of_view h ha hpatch hes hcontents hsame hw hview).1,
      nothing_staged hes hs hc hsame hw⟩
  · intro hshown
    have hs := h.separate (configsApart_of_temporary h ha fun w hw m hm heq => by
      obtain ⟨c, hview⟩ := h.view_config hm
      have hnone : s.disk.view (s.disk.place (temporaryOf w.path)) = none := (hshown w hw).2
      rw [heq, hview] at hnone
      simp at hnone) hc
    exact followed_makes h ha hpatch hes hcontents hs (hs.makes hc) hshown

theorem exists_of_isSome {ε α : Type} {x : Except ε α} (h : x.toOption.isSome = true) :
    ∃ a, x = .ok a := by
  obtain ⟨a, ha⟩ := Option.isSome_iff_exists.mp h
  exact ⟨a, result_of_toOption ha⟩

theorem exists_run_of_isSome {ε α : Type} {x : Except ε α × Session} {P : Disk → Prop}
    (h : x.1.toOption.isSome = true) (hP : P x.2.disk) : ∃ a t, x = (.ok a, t) ∧ P t.disk := by
  obtain ⟨a, ha⟩ := exists_of_isSome h
  exact ⟨a, x.2, Prod.ext ha rfl, hP⟩

theorem filesApart_oneConfig : oneConfigPlan.FilesApart oneConfig where
  sources := by decide
  targets := by decide
  writes := by decide

theorem diffs_followed_iff_oneConfig : ∃ entries effects t es,
    oneConfigPlan.diffs oneConfig = .ok entries ∧
      (apply oneConfigPlan false).run (.start oneConfig) = (.ok effects, t) ∧
      entries = oneConfigPlan.renames.map (renameDiff oneConfigPlan.root) ++ es ∧
      (oneConfigPlan.followed Diff.patch oneConfig es).SameFiles t.disk.view := by
  have hread : ∀ w ∈ oneConfigPlan.writes,
      (contentBefore oneConfig oneConfigPlan w.path).toOption.isSome = true := by decide +kernel
  obtain ⟨entries, hdiffs⟩ : ∃ entries,
      oneConfigPlan.diffs (Session.start oneConfig).disk = .ok entries :=
    exists_diffs fun w hw => exists_of_isSome (hread w hw)
  have happlied : ((apply oneConfigPlan false).run (.start oneConfig)).1.toOption.isSome = true := by
    decide +kernel
  obtain ⟨effects, t, happly, -⟩ := @exists_run_of_isSome _ _ _ (fun _ => True) happlied trivial
  have hapart : oneConfigPlan.FilesApart (Session.start oneConfig).disk := filesApart_oneConfig
  have hpatch : oneConfigPlan.PatchedBy Diff.patch (Session.start oneConfig).disk :=
    patchedBy_patch (by decide +kernel)
  obtain ⟨es, hes, hagree⟩ :=
    diffs_followed_iff (result_of_toOption planAt_oneConfig) hapart hdiffs happly hpatch
  have hwritten : ∀ w ∈ oneConfigPlan.writes, w.content ≠ "" ∧
      oneConfig.at? (oneConfig.place (temporaryOf w.path)) = none := by decide +kernel
  exact ⟨entries, effects, t, es, hdiffs, happly, hes, hagree.mpr hwritten⟩

/-- A workspace in which new configs are empty. -/
def emptyTemplate : Disk :=
  let template := Entry.directory [("webpack.config.js.tera", .file (.text ""))]
  ⟨.directory [("ws", .directory [
    ("conduit.yaml", .file (.text "migrate: \x7bwebpack_executor: w, template_dir: t\x7d")),
    ("project.json", .file (.text ("\x7b\"targets\":\x7b" ++ targetText "a" "w.js" ++ "\x7d\x7d"))),
    ("t", .directory [("webpack", template)]),
    ("w.js", .file (.text "withNx()"))])], []⟩

def emptyConfigPlan : Plan :=
  { oneConfigPlan with
    writes := oneConfigPlan.writes.take 1 ++ [⟨⟨"ws/w.js"⟩, ""⟩] }

theorem planAt_emptyTemplate :
    (planAt emptyTemplate ⟨"ws"⟩ ⟨none, true⟩).result.toOption = some emptyConfigPlan := by
  decide +kernel

theorem filesApart_emptyTemplate : emptyConfigPlan.FilesApart emptyTemplate where
  sources := by decide
  targets := by decide
  writes := by decide

/-- A new config that is empty is not previewed: following leaves nothing at its path, and
applying an empty file. -/
theorem empty_config_is_not_previewed : ∃ effects t es,
    (planAt emptyTemplate ⟨"ws"⟩ ⟨none, true⟩).result = .ok emptyConfigPlan ∧
      emptyConfigPlan.FilesApart emptyTemplate ∧
      emptyConfigPlan.PatchedBy Diff.patch emptyTemplate ∧
      emptyConfigPlan.diffs emptyTemplate =
        .ok (emptyConfigPlan.renames.map (renameDiff emptyConfigPlan.root) ++ es) ∧
      (apply emptyConfigPlan false).run (.start emptyTemplate) = (.ok effects, t) ∧
      emptyConfigPlan.followed Diff.patch emptyTemplate es ["ws", "w.js"] = none ∧
      t.disk.view ["ws", "w.js"] = some (.file (.text "")) ∧
      ¬ (emptyConfigPlan.followed Diff.patch emptyTemplate es).SameFiles t.disk.view := by
  have hread : ∀ w ∈ emptyConfigPlan.writes,
      (contentBefore emptyTemplate emptyConfigPlan w.path).toOption.isSome = true := by
    decide +kernel
  obtain ⟨entries, hdiffs⟩ := exists_diffs fun w hw => exists_of_isSome (hread w hw)
  obtain ⟨es, hes, rfl⟩ := diffs_eq_ok hdiffs
  have hcreated : ((apply emptyConfigPlan false).run (.start emptyTemplate)).2.disk.view
      ["ws", "w.js"] = some (.file (.text "")) := by decide +kernel
  have happlied :
      ((apply emptyConfigPlan false).run (.start emptyTemplate)).1.toOption.isSome = true := by
    decide +kernel
  obtain ⟨effects, t, happly, hview⟩ := @exists_run_of_isSome _ _ _
    (fun d => d.view ["ws", "w.js"] = some (.file (.text ""))) happlied hcreated
  have hmissing : emptyConfigPlan.followed Diff.patch emptyTemplate es ["ws", "w.js"] = none := by
    have hmem : ⟨⟨"ws/w.js"⟩, ""⟩ ∈ emptyConfigPlan.writes := by decide
    have hunshown : (writeDiff? emptyTemplate emptyConfigPlan ⟨⟨"ws/w.js"⟩, ""⟩).toOption =
        some none := by decide +kernel
    obtain ⟨o, ho, hfollowed⟩ := @patchAll_of_mem Diff.patch _ _
      (emptyConfigPlan.moved emptyTemplate) _ _ _ hes filesApart_emptyTemplate.writes hmem
    obtain rfl := Except.ok.inj ((result_of_toOption hunshown).symm.trans ho)
    exact hfollowed.trans (by decide)
  refine ⟨effects, t, es, result_of_toOption planAt_emptyTemplate, filesApart_emptyTemplate,
    patchedBy_patch (by decide +kernel), hdiffs, happly, hmissing, hview, fun hsame => ?_⟩
  have hfile := hsame ["ws", "w.js"]
  rw [hmissing, hview] at hfile
  obtain ⟨c, hc⟩ := hfile.exists_file.mpr ⟨_, rfl⟩
  simp at hc

end Migration

end Workyard
