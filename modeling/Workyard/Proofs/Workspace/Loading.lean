import Mathlib.Data.List.Perm.Basic
import Workyard.Proofs.Disk.Walk
import Workyard.Proofs.Path.Components
import Workyard.Proofs.Path.Order
import Workyard.Proofs.Workspace.Sources

/-!
# Loading a workspace

The project files of a workspace are found in the order of their paths, whatever the order of the
listings. Loading succeeds when each of them gives a project and no two give the same name; then the
projects stand in the order of their names. Otherwise the error is that of the first file that does
not go with those before it.
-/

namespace Workyard.Workspace

set_option autoImplicit false

open Disk

variable {d d' : Disk} {root path : FilePath} {ignore : List String} {files files' : List FilePath}
  {ps : List Project} {l l' : Location}

/-! ### Finding the files -/

/-- The files are the project files below a directory that no ignored name leads to, in the order
of their paths. -/
structure Discovered (d : Disk) (root : FilePath) (ignore : List String) (files : List FilePath) :
    Prop where
  mem_iff : ∀ path, path ∈ files ↔ ∃ l content, path = below root l ∧
    d.view (d.place root ++ l) = some (.file content) ∧ l.getLast? = some projectFile ∧
    ∀ name ∈ l, isIgnored ignore name = false
  ordered : files.Pairwise FilePath.Before

theorem Discovered.unique (h : Discovered d root ignore files)
    (h' : Discovered d root ignore files') : files = files' := by
  have hnodup : ∀ {files : List FilePath}, files.Pairwise FilePath.Before → files.Nodup :=
    fun hordered => hordered.imp fun hbefore => hbefore.ne
  refine List.Perm.eq_of_pairwise (fun p q _ _ hpq hqp => ?_) h.ordered h'.ordered ?_
  · exact absurd hqp hpq.asymm
  · rw [List.perm_ext_iff_of_nodup (hnodup h.ordered) (hnodup h'.ordered)]
    exact fun path => (h.mem_iff path).trans (h'.mem_iff path).symm

theorem components_below (hl : ∀ name ∈ l, FilePath.IsName name) (root : FilePath) :
    (below root l).components = root.components ++ l.map .name := by
  induction l generalizing root with
  | nil => simp [below]
  | cons name l ih =>
    obtain ⟨hname, hl⟩ := List.forall_mem_cons.mp hl
    have h := ih hl (root.child name)
    rw [FilePath.components_child hname, List.append_assoc] at h
    exact h

/-- Different locations have paths that say different things. -/
theorem below_injective (hl : ∀ name ∈ l, FilePath.IsName name)
    (hl' : ∀ name ∈ l', FilePath.IsName name) (h : (below root l).same (below root l') = true) :
    l = l' := by
  rw [FilePath.same_iff, components_below hl, components_below hl', List.append_right_inj] at h
  exact List.map_injective_iff.mpr (fun _ _ => FilePath.Component.name.inj) h

theorem mem_projectFiles {e : Entry} (he : e.WellNamed) :
    path ∈ projectFiles ignore root e ↔ ∃ l content, path = below root l ∧
      e.at? l = some (.file content) ∧ l.getLast? = some projectFile ∧
      ∀ name ∈ l, isIgnored ignore name = false := by
  unfold projectFiles
  rw [List.mem_map]
  constructor
  · rintro ⟨⟨l, n⟩, hfound, rfl⟩
    obtain ⟨hwalk, hproject⟩ := List.mem_filter.mp hfound
    obtain ⟨_, hat, hnames⟩ := (Entry.mem_walk he).mp hwalk
    cases n with
    | directory => exact absurd hproject (by simp [isProjectFile])
    | file content =>
      exact ⟨l, content, rfl, hat, by simpa [isProjectFile] using hproject, by simpa using hnames⟩
  · rintro ⟨l, content, rfl, hat, hlast, hnames⟩
    have hne : l ≠ [] := by
      rintro rfl
      simp at hlast
    refine ⟨(l, .file content), List.mem_filter.mpr ⟨?_, ?_⟩, rfl⟩
    · exact (Entry.mem_walk he).mpr ⟨hne, hat, by simpa using hnames⟩
    · simpa [isProjectFile] using hlast

theorem projectFiles_apart {e : Entry} (he : e.WellNamed) :
    (projectFiles ignore root e).Pairwise fun p q => p.same q = false := by
  unfold projectFiles
  rw [List.pairwise_map]
  have hnodup := List.pairwise_map.mp (@Entry.nodup_walk (!isIgnored ignore ·) e he)
  refine List.Pairwise.imp_of_mem ?_ (hnodup.sublist List.filter_sublist)
  intro found found' hfound hfound' hne
  have hnames : ∀ {found : Location × Node},
      found ∈ (e.walk (!isIgnored ignore ·)).filter isProjectFile →
        ∀ name ∈ found.1, FilePath.IsName name := by
    intro found hfound
    obtain ⟨_, hat, _⟩ := (Entry.mem_walk he).mp (List.mem_filter.mp hfound).1
    exact he.isName_of_at? hat
  rw [Bool.eq_false_iff]
  exact fun hsame => hne (below_injective (hnames hfound) (hnames hfound') hsame)

/-- What is found below a directory is found in the order of the paths. -/
theorem discovered_of_discover (hd : d.root.WellNamed) (h : discover d root ignore = .ok files) :
    Discovered d root ignore files := by
  unfold discover at h
  split at h
  · rename_i es hes
    obtain rfl := Except.ok.inj h
    have hfind := (entry_eq_ok_iff.mp hes).2
    have he := (hd.find? hfind).2
    have hat := view_append hfind
    refine ⟨fun path => ?_, FilePath.pairwise_before (projectFiles_apart he)⟩
    simp only [hat]
    rw [List.mem_mergeSort]
    exact mem_projectFiles he
  · simp at h

theorem discover_of_isDirectory (h : d.isDirectory root = true) :
    ∃ files, discover d root ignore = .ok files := by
  obtain ⟨hreaches, hview⟩ := isDirectory_iff.mp h
  obtain ⟨es, hes⟩ := find?_of_view_directory hview
  have hentry : d.entry root = .ok (.directory es) := entry_eq_ok_iff.mpr ⟨hreaches, hes⟩
  unfold discover
  rw [hentry]
  exact ⟨_, rfl⟩

theorem discover_of_not_isDirectory (h : d.isDirectory root = false) :
    discover d root ignore = .error (.workspaceNotFound root) := by
  unfold discover
  split
  · rename_i es hes
    simp [isDirectory, hes, Except.toOption, Entry.isDirectory] at h
  · rfl

/-! ### Reading the files -/

theorem Gives.unique {p p' : Project} (h : Gives d root path p) (h' : Gives d root path p') :
    p = p' :=
  Except.ok.inj (h.symm.trans h')

/-- Every file gives a project, and no two of them give the same name. -/
structure LoadsApart (d : Disk) (root : FilePath) (files : List FilePath) : Prop where
  each : ∀ path ∈ files, ∃ p, Gives d root path p
  apart : files.Pairwise fun path path' =>
    ∀ p p', Gives d root path p → Gives d root path' p' → p.name ≠ p'.name

theorem loadsApart_iff : LoadsApart d root files ↔
    ∃ ps, List.Forall₂ (Gives d root) files ps ∧ (ps.map (·.name)).Nodup := by
  induction files with
  | nil => exact ⟨fun _ => ⟨[], .nil, List.nodup_nil⟩, fun _ => ⟨by simp, .nil⟩⟩
  | cons path files ih =>
    constructor
    · rintro ⟨heach, hapart⟩
      obtain ⟨⟨p, hp⟩, heach⟩ := List.forall_mem_cons.mp heach
      obtain ⟨hfirst, hapart⟩ := List.pairwise_cons.mp hapart
      obtain ⟨ps, hps, hnodup⟩ := ih.mp ⟨heach, hapart⟩
      refine ⟨p :: ps, .cons hp hps, List.nodup_cons.mpr ⟨fun hmem => ?_, hnodup⟩⟩
      obtain ⟨q, hq, hname⟩ := List.mem_map.mp hmem
      obtain ⟨path', hpath', hgives⟩ := exists_mem_of_gives hps q hq
      exact hfirst path' hpath' p q hp hgives hname.symm
    · rintro ⟨_, hall, hnodup⟩
      obtain ⟨p, ps, hp, hps, rfl⟩ := List.forall₂_cons_left_iff.mp hall
      obtain ⟨hname, hnodup⟩ := List.nodup_cons.mp hnodup
      obtain ⟨heach, hapart⟩ := ih.mpr ⟨ps, hps, hnodup⟩
      refine ⟨List.forall_mem_cons.mpr ⟨⟨p, hp⟩, heach⟩, List.pairwise_cons.mpr ⟨?_, hapart⟩⟩
      intro path' hpath' q q' hq hq' heq
      obtain ⟨p', hp', hgives⟩ := exists_project_of_gives hps path' hpath'
      rw [← hp.unique hq, ← hgives.unique hq'] at heq
      exact hname (List.mem_map.mpr ⟨p', hp', heq.symm⟩)

/-- The error of a file that does not go with those before it. -/
inductive FailsAfter (d : Disk) (root : FilePath) (before : List FilePath) (path : FilePath) :
    LoadError → Prop where
  | fails {e : LoadError} (h : (loadProject d root path).result = .error e) :
      FailsAfter d root before path e
  | repeats {p q : Project} {first : FilePath} (h : Gives d root path p) (hfirst : first ∈ before)
      (hq : Gives d root first q) (hname : q.name = p.name) :
      FailsAfter d root before path (.duplicateProject p.name first path)

theorem stopsAt_iff (h : List.Forall₂ (Gives d root) files ps) (hnodup : (ps.map (·.name)).Nodup)
    {e : LoadError} : StopsAt d root path ps e ↔ FailsAfter d root files path e := by
  constructor
  · rintro (hfails | @⟨p, earlier, hp, hfind⟩)
    · exact .fails hfails
    · obtain ⟨first, hfirst, hgives⟩ := exists_mem_of_gives h _ (List.mem_of_find?_eq_some hfind)
      rw [hgives.source]
      exact .repeats hp hfirst hgives (by simpa using List.find?_some hfind)
  · rintro (hfails | @⟨p, q, first, hp, hfirst, hq, hname⟩)
    · exact .fails hfails
    · obtain ⟨q', hq', hgives⟩ := exists_project_of_gives h first hfirst
      obtain rfl := hq.unique hgives
      have hsome : (ps.find? (·.name = p.name)).isSome = true :=
        List.find?_isSome.mpr ⟨q, hq', by simpa using hname⟩
      obtain ⟨earlier, hfind⟩ := Option.isSome_iff_exists.mp hsome
      have hearlier : earlier.name = p.name := by simpa using List.find?_some hfind
      obtain rfl : earlier = q :=
        List.inj_on_of_nodup_map hnodup (List.mem_of_find?_eq_some hfind) hq' (hearlier.trans hname.symm)
      have hstops := StopsAt.repeats hp hfind
      rwa [hq.source] at hstops

/-- What loading comes to, told by the files in their order. -/
structure LoadsExactly (d : Disk) (root : FilePath) (ignore : List String) (files : List FilePath) :
    Prop where
  succeeds : (∃ w, (load d root ignore).result = .ok w) ↔ LoadsApart d root files
  projects : ∀ w, (load d root ignore).result = .ok w →
    w.root = root ∧ w.projects.Pairwise (fun p q => p.name < q.name) ∧
      ∃ ps, List.Forall₂ (Gives d root) files ps ∧ w.projects.Perm ps
  fails : ∀ e, (load d root ignore).result = .error e ↔
    ∃ before path after, files = before ++ path :: after ∧ LoadsApart d root before ∧
      FailsAfter d root before path e

theorem pairwise_names (hnodup : (ps.map (·.name)).Nodup) :
    (ps.mergeSort fun p q => p.name ≤ q.name).Pairwise fun p q => p.name < q.name := by
  have hle : (ps.mergeSort fun p q => p.name ≤ q.name).Pairwise fun p q => p.name ≤ q.name := by
    have hsorted := @List.pairwise_mergeSort _ (fun p q : Project => decide (p.name ≤ q.name))
      (fun _ _ _ => by simpa using String.le_trans)
      (fun p q => by simpa using String.le_total p.name q.name) ps
    simpa using hsorted
  have hne : (ps.mergeSort fun p q => p.name ≤ q.name).Pairwise fun p q => p.name ≠ q.name :=
    (List.mergeSort_perm ps _).symm.pairwise (List.pairwise_map.mp hnodup) Ne.symm
  exact (hle.and hne).imp fun {p q} h => String.not_le.mp fun hqp => h.2 (String.le_antisymm h.1 hqp)

theorem loadsExactly_of_discover (h : discover d root ignore = .ok files) :
    LoadsExactly d root ignore files := by
  refine ⟨?_, ?_, ?_⟩
  · rw [loadsApart_iff]
    constructor
    · rintro ⟨w, hw⟩
      obtain ⟨paths, ps, hpaths, hps, hnodup, _⟩ := load_eq_ok.mp hw
      obtain rfl := Except.ok.inj (h.symm.trans hpaths)
      exact ⟨ps, hps, hnodup⟩
    · rintro ⟨ps, hps, hnodup⟩
      exact ⟨_, load_eq_ok.mpr ⟨files, ps, h, hps, hnodup, rfl⟩⟩
  · intro w hw
    obtain ⟨paths, ps, hpaths, hps, hnodup, rfl⟩ := load_eq_ok.mp hw
    obtain rfl := Except.ok.inj (h.symm.trans hpaths)
    exact ⟨rfl, pairwise_names hnodup, ps, hps, List.mergeSort_perm ps _⟩
  · intro e
    rw [load_eq_error h, loadAll_eq_error]
    constructor
    · rintro ⟨before, path, after, ps, hfiles, hbefore, hstops⟩
      obtain ⟨_, rfl, hps, hnodup⟩ := (loadAll_eq_ok (by simp)).mp hbefore
      exact ⟨before, path, after, hfiles, loadsApart_iff.mpr ⟨_, hps, hnodup⟩,
        (stopsAt_iff hps hnodup).mp hstops⟩
    · rintro ⟨before, path, after, hfiles, hbefore, hfails⟩
      obtain ⟨ps, hps, hnodup⟩ := loadsApart_iff.mp hbefore
      exact ⟨before, path, after, ps, hfiles, (loadAll_eq_ok (by simp)).mpr ⟨ps, rfl, hps, hnodup⟩,
        (stopsAt_iff hps hnodup).mpr hfails⟩

/-! ### The order of the listings -/

theorem loadAll_congr (h : ∀ path, d.readText path = d'.readText path) (root : FilePath)
    (loaded : List Project) (paths : List FilePath) :
    loadAll d root loaded paths = loadAll d' root loaded paths := by
  induction paths generalizing loaded with
  | nil => rfl
  | cons path paths ih =>
    have hload : loadProject d root path = loadProject d' root path := by
      simp only [loadProject, h]
    simp only [loadAll, hload, ih]

theorem isDirectory_congr (hh : d.here = d'.here) (hv : d.view = d'.view) (p : FilePath) :
    d.isDirectory p = d'.isDirectory p := by
  rw [Bool.eq_iff_iff, isDirectory_iff, isDirectory_iff, reaches_congr hh hv, hv, place_congr hh]

/-- Disks that differ in the order of their listings load the same. -/
theorem load_congr (hd : d.root.WellNamed) (hd' : d'.root.WellNamed) (hh : d.here = d'.here)
    (hv : d.view = d'.view) (root : FilePath) (ignore : List String) :
    load d root ignore = load d' root ignore := by
  have hdiscover : discover d root ignore = discover d' root ignore := by
    have hdirectory := isDirectory_congr hh hv root
    cases h : d.isDirectory root with
    | false =>
      rw [discover_of_not_isDirectory h, discover_of_not_isDirectory (hdirectory.symm.trans h)]
    | true =>
      obtain ⟨files, hfiles⟩ := @discover_of_isDirectory d root ignore h
      obtain ⟨files', hfiles'⟩ := @discover_of_isDirectory d' root ignore (hdirectory.symm.trans h)
      have hfound := discovered_of_discover hd hfiles
      obtain ⟨hmem, hordered⟩ := discovered_of_discover hd' hfiles'
      rw [← hv, ← place_congr hh] at hmem
      rw [hfiles, hfiles', hfound.unique ⟨hmem, hordered⟩]
  unfold load
  rw [hdiscover]
  simp only [loadAll_congr (readText_congr hh hv)]

/-- Loading is exact: it ends with the projects of the files that are found, or with the error of
the first of them that does not go with those before it. -/
theorem load_exact (hd : d.root.WellNamed) (root : FilePath) (ignore : List String) :
    (d.isDirectory root = false →
      (load d root ignore).result = .error (.workspaceNotFound root)) ∧
    (d.isDirectory root = true →
      ∃ files, Discovered d root ignore files ∧ LoadsExactly d root ignore files) ∧
    ∀ d' : Disk, d'.root.WellNamed → d'.here = d.here → d'.view = d.view →
      load d' root ignore = load d root ignore := by
  refine ⟨fun h => ?_, fun h => ?_, fun d' hd' hh hv => load_congr hd' hd hh hv root ignore⟩
  · refine Logged.result_bind_eq_error.mpr (.inl ?_)
    rw [Logged.result_ofExcept, discover_of_not_isDirectory h]
  · obtain ⟨files, hfiles⟩ := @discover_of_isDirectory d root ignore h
    exact ⟨files, discovered_of_discover hd hfiles, loadsExactly_of_discover hfiles⟩

/-- A directory of two projects, listed against the order of their paths. -/
def unsorted : Entry :=
  .directory [("shop", .directory [("project.json", .file (.text "\x7b\x7d"))]),
    ("admin", .directory [("project.json", .file (.text "\x7b\x7d"))])]

theorem load_exact_unsorted :
    unsorted.WellNamed ∧ (⟨unsorted, []⟩ : Disk).isDirectory ⟨"/"⟩ = true ∧
      ∃ files, Discovered ⟨unsorted, []⟩ ⟨"/"⟩ [] files ∧
        LoadsExactly ⟨unsorted, []⟩ ⟨"/"⟩ [] files := by
  have hproject : ∀ {name content : String}, FilePath.IsName name →
      (Entry.directory [(name, .file (.text content))]).WellNamed := fun hname =>
    .directory (by simpa using hname) (by simp) (by simpa using Entry.WellNamed.file _)
  have hfile : FilePath.IsName "project.json" := by decide
  have hnamed : unsorted.WellNamed := by
    refine .directory ?_ (by decide) ?_
    · simp only [List.forall_mem_cons]
      exact ⟨by decide, by decide, by simp⟩
    · simp only [List.forall_mem_cons]
      exact ⟨hproject hfile, hproject hfile, by simp⟩
  have hdirectory : (⟨unsorted, []⟩ : Disk).isDirectory ⟨"/"⟩ = true := by decide
  exact ⟨hnamed, hdirectory,
    (@load_exact ⟨unsorted, []⟩ hnamed ⟨"/"⟩ []).2.1 hdirectory⟩

end Workyard.Workspace
