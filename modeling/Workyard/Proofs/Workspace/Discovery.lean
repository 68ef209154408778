import Mathlib.Data.List.Sort
import Workyard.Proofs.Text.Bytes
import Workyard.Proofs.Workspace.Loading

/-!
# Discovering project files

The project files of a workspace are told by their locations below it: all files of the one name to
which no ignored name leads, each once, in the order of the bytes of the names. Only what stands
below the workspace has a part in that. Neither its own name nor the order of any listing has.
-/

namespace Workyard.Workspace

set_option autoImplicit false

open Disk

variable {d d' : Disk} {root root' : FilePath} {ignore : List String} {top : Location}
  {l l' : Location} {ls ls' : List Location}

/-- One location comes before another one: the bytes of the first names that differ do. -/
def Earlier (l l' : Location) : Prop :=
  List.Lex (fun a b => Text.bytes a < Text.bytes b) l l'

theorem earlier_iff : Earlier l l' ↔ l < l' := by
  unfold Earlier
  simp only [← Text.lt_iff_bytes]
  exact Iff.rfl

/-- What stands in the order of its locations is told by what there is. -/
theorem eq_of_earlier {α : Type} {place : α → Location} {as bs : List α}
    (has : as.Pairwise fun a b => Earlier (place a) (place b))
    (hbs : bs.Pairwise fun a b => Earlier (place a) (place b)) (h : ∀ a, a ∈ as ↔ a ∈ bs) :
    as = bs := by
  have hirrefl : Std.Irrefl fun a b : α => Earlier (place a) (place b) :=
    ⟨fun a hlt => lt_irrefl _ (earlier_iff.mp hlt)⟩
  have hantisymm : Std.Antisymm fun a b : α => Earlier (place a) (place b) :=
    ⟨fun _ _ hlt hgt => absurd (earlier_iff.mp hgt) (lt_asymm (earlier_iff.mp hlt))⟩
  exact has.eq_of_mem_iff hbs h

theorem componentsLe_append (cs as bs : List FilePath.Component) :
    FilePath.componentsLe (cs ++ as) (cs ++ bs) = FilePath.componentsLe as bs := by
  induction cs with
  | nil => rfl
  | cons c cs ih => simpa [FilePath.componentsLe] using ih

theorem lt_of_componentsLe (h : FilePath.componentsLe (l.map .name) (l'.map .name) = true)
    (hne : l ≠ l') : l < l' := by
  induction l generalizing l' with
  | nil =>
    obtain ⟨name, l', rfl⟩ := List.exists_cons_of_ne_nil hne.symm
    exact List.Lex.nil
  | cons name l ih =>
    cases l' with
    | nil => simp [FilePath.componentsLe] at h
    | cons name' l' =>
      simp only [List.map_cons, FilePath.componentsLe, FilePath.Component.name.injEq] at h
      by_cases hname : name = name'
      · subst hname
        rw [if_pos rfl] at h
        exact List.Lex.cons (ih h fun heq => hne (by rw [heq]))
      · rw [if_neg hname, FilePath.Component.le_iff] at h
        have hle : name ≤ name' := by
          rcases h with h | h
          · exact absurd h (lt_irrefl _)
          · exact h.2
        exact List.Lex.rel (lt_of_le_of_ne hle hname)

/-- Paths below a directory stand in the order of what leads to them from there. -/
theorem earlier_of_before (hl : ∀ name ∈ l, FilePath.IsName name)
    (hl' : ∀ name ∈ l', FilePath.IsName name) (h : (below root l).Before (below root l')) :
    Earlier l l' := by
  obtain ⟨hle, hsame⟩ := h
  rw [FilePath.le, components_below hl, components_below hl', componentsLe_append] at hle
  refine earlier_iff.mpr (lt_of_componentsLe hle ?_)
  rintro rfl
  simp at hsame

/-- A file that is named as project files are and that no ignored name leads to. -/
structure IsProjectAt (d : Disk) (top : Location) (ignore : List String) (l : Location) : Prop where
  file : ∃ content, d.view (top ++ l) = some (.file content)
  named : l.getLast? = some projectFile
  searched : ∀ name ∈ l, name ∉ alwaysIgnored ∧ name ∉ ignore

/-- The locations below a directory at which there are project files. -/
structure Located (d : Disk) (top : Location) (ignore : List String) (ls : List Location) :
    Prop where
  mem_iff : ∀ l, l ∈ ls ↔ IsProjectAt d top ignore l
  ordered : ls.Pairwise Earlier

theorem Located.unique (h : Located d top ignore ls) (h' : Located d top ignore ls') :
    ls = ls' :=
  eq_of_earlier h.ordered h'.ordered fun l => (h.mem_iff l).trans (h'.mem_iff l).symm

theorem Located.congr {top' : Location} (hview : ∀ l, d'.view (top' ++ l) = d.view (top ++ l))
    (h : Located d' top' ignore ls) : Located d top ignore ls := by
  refine ⟨fun l => (h.mem_iff l).trans ?_, h.ordered⟩
  constructor
  · rintro ⟨hfile, hnamed, hsearched⟩
    exact ⟨by rwa [← hview], hnamed, hsearched⟩
  · rintro ⟨hfile, hnamed, hsearched⟩
    exact ⟨by rwa [hview], hnamed, hsearched⟩

theorem IsProjectAt.isName (hd : d.root.WellNamed) (h : IsProjectAt d top ignore l) :
    ∀ name ∈ l, FilePath.IsName name := by
  obtain ⟨content, hview⟩ := h.file
  exact isName_of_view hd hview

theorem isIgnored_eq_false {name : String} :
    isIgnored ignore name = false ↔ name ∉ alwaysIgnored ∧ name ∉ ignore := by
  simp [isIgnored]

theorem Discovered.mem_iff_isProjectAt {files : List FilePath}
    (h : Discovered d root ignore files) (path : FilePath) :
    path ∈ files ↔ ∃ l, path = below root l ∧ IsProjectAt d (d.place root) ignore l := by
  rw [h.mem_iff]
  simp only [isIgnored_eq_false]
  constructor
  · rintro ⟨l, content, rfl, hview, hnamed, hsearched⟩
    exact ⟨l, rfl, ⟨content, hview⟩, hnamed, hsearched⟩
  · rintro ⟨l, rfl, ⟨content, hview⟩, hnamed, hsearched⟩
    exact ⟨l, content, rfl, hview, hnamed, hsearched⟩

theorem exists_eq_map_below {P : Location → Prop} {files : List FilePath}
    (h : ∀ path ∈ files, ∃ l, path = below root l ∧ P l) :
    ∃ ls : List Location, files = ls.map (below root) ∧ ∀ l ∈ ls, P l := by
  induction files with
  | nil => exact ⟨[], rfl, by simp⟩
  | cons path files ih =>
    obtain ⟨⟨l, rfl, hl⟩, hfiles⟩ := List.forall_mem_cons.mp h
    obtain ⟨ls, rfl, hls⟩ := ih hfiles
    exact ⟨l :: ls, rfl, List.forall_mem_cons.mpr ⟨hl, hls⟩⟩

/-- The files that are discovered are below the directory, each at its location. -/
theorem Discovered.located (hd : d.root.WellNamed) {files : List FilePath}
    (h : Discovered d root ignore files) :
    ∃ ls, files = ls.map (below root) ∧ Located d (d.place root) ignore ls := by
  have hmem := h.mem_iff_isProjectAt
  obtain ⟨ls, rfl, hls⟩ := exists_eq_map_below fun path hpath => (hmem path).mp hpath
  refine ⟨ls, rfl, fun l => ⟨hls l, fun hl => ?_⟩, ?_⟩
  · obtain ⟨l', hl', heq⟩ := List.mem_map.mp ((hmem _).mpr ⟨l, rfl, hl⟩)
    have hsame : (below root l').same (below root l) = true := by rw [heq, FilePath.same_refl]
    rwa [← below_injective ((hls l' hl').isName hd) (hl.isName hd) hsame]
  · refine (List.pairwise_map.mp h.ordered).imp_of_mem fun {l l'} hl hl' hbefore => ?_
    exact earlier_of_before ((hls l hl).isName hd) ((hls l' hl').isName hd) hbefore

theorem exists_located (hd : d.root.WellNamed) (h : d.isDirectory root = true) :
    ∃ ls, discover d root ignore = .ok (ls.map (below root)) ∧
      Located d (d.place root) ignore ls := by
  obtain ⟨files, hfiles⟩ := @discover_of_isDirectory d root ignore h
  obtain ⟨ls, rfl, hls⟩ := (discovered_of_discover hd hfiles).located hd
  exact ⟨ls, hfiles, hls⟩

/-- Discovery finds the project files below a directory, and wherever else the same stands below a
directory it finds them at the same locations. -/
theorem discover_exact (hd : d.root.WellNamed) (root : FilePath) (ignore : List String) :
    (d.isDirectory root = false → discover d root ignore = .error (.workspaceNotFound root)) ∧
    (d.isDirectory root = true → ∃ ls, Located d (d.place root) ignore ls ∧
      discover d root ignore = .ok (ls.map (below root)) ∧
      (∀ l ∈ ls, (below root l).components = root.components ++ l.map .name) ∧
      ∀ (d' : Disk) (root' : FilePath), d'.root.WellNamed → d'.isDirectory root' = true →
        (∀ l, d'.view (d'.place root' ++ l) = d.view (d.place root ++ l)) →
          discover d' root' ignore = .ok (ls.map (below root'))) := by
  refine ⟨discover_of_not_isDirectory, fun h => ?_⟩
  obtain ⟨ls, hdiscover, hls⟩ := @exists_located d root ignore hd h
  refine ⟨ls, hls, hdiscover, ?_, ?_⟩
  · intro l hl
    exact components_below (((hls.mem_iff l).mp hl).isName hd) root
  · intro d' root' hd' h' hview
    obtain ⟨ls', hdiscover', hls'⟩ := @exists_located d' root' ignore hd' h'
    rw [hdiscover', hls.unique (hls'.congr hview)]

/-- A directory with an ignored name, in which a directory is named as project files are and
another one is ignored. -/
def nested : Entry :=
  .directory [("dist", .directory [
    ("zone", .directory [("project.json", .file (.text "\x7b\x7d"))]),
    ("project.json", .directory [("project.json", .file (.text "\x7b\x7d"))]),
    ("tmp", .directory [("project.json", .file (.text "\x7b\x7d"))])])]

theorem discover_nested : discover ⟨nested, []⟩ ⟨"dist"⟩ [] =
    .ok [⟨"dist/project.json/project.json"⟩, ⟨"dist/zone/project.json"⟩] := by
  obtain ⟨es, hes, hfiles⟩ : ∃ es, (⟨nested, []⟩ : Disk).entry ⟨"dist"⟩ = .ok (.directory es) ∧
      projectFiles [] ⟨"dist"⟩ (.directory es) =
        [⟨"dist/zone/project.json"⟩, ⟨"dist/project.json/project.json"⟩] :=
    ⟨_, rfl, by decide +kernel⟩
  unfold discover
  rw [hes]
  dsimp only
  have hfirst : FilePath.le ⟨"dist/zone/project.json"⟩ ⟨"dist/project.json/project.json"⟩ = false := by
    decide
  simp [hfiles, List.mergeSort, List.MergeSort.Internal.splitInTwo, hfirst]

theorem discover_exact_nested :
    nested.WellNamed ∧ (⟨nested, []⟩ : Disk).isDirectory ⟨"dist"⟩ = true ∧
      ∃ ls, Located ⟨nested, []⟩ ["dist"] [] ls ∧
        discover ⟨nested, []⟩ ⟨"dist"⟩ [] = .ok (ls.map (below ⟨"dist"⟩)) ∧
        ls.map (below ⟨"dist"⟩) =
          [⟨"dist/project.json/project.json"⟩, ⟨"dist/zone/project.json"⟩] := by
  have hproject : ∀ {name : String}, FilePath.IsName name →
      (Entry.directory [(name, .file (.text "\x7b\x7d"))]).WellNamed := fun hname =>
    .directory (by simpa using hname) (by simp) (by simpa using Entry.WellNamed.file _)
  have hfile : FilePath.IsName "project.json" := by decide
  have hnamed : nested.WellNamed := by
    refine .directory (by simpa using by decide) (by decide) ?_
    simp only [List.forall_mem_cons]
    refine ⟨.directory ?_ (by decide) ?_, by simp⟩
    · simp only [List.forall_mem_cons]
      exact ⟨by decide, hfile, by decide, by simp⟩
    · simp only [List.forall_mem_cons]
      exact ⟨hproject hfile, hproject hfile, hproject hfile, by simp⟩
  have hdirectory : (⟨nested, []⟩ : Disk).isDirectory ⟨"dist"⟩ = true := by decide
  obtain ⟨ls, hls, hdiscover, _⟩ :=
    (@discover_exact ⟨nested, []⟩ hnamed ⟨"dist"⟩ []).2 hdirectory
  exact ⟨hnamed, hdirectory, ls, hls, hdiscover, Except.ok.inj (hdiscover.symm.trans discover_nested)⟩

end Workyard.Workspace
