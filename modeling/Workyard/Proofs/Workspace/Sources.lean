import Mathlib.Data.List.Forall2
import Mathlib.Data.List.Nodup
import Workyard.Proofs.Project.Written
import Workyard.Workspace

/-!
# Sources of projects

Every project of a workspace that was loaded comes from a project file, and no two projects have
one name.
-/

namespace Workyard

set_option autoImplicit false

namespace Workspace

variable {d : Disk} {root path : FilePath} {ignore : List String}

theorem below_concat (root : FilePath) (l : Disk.Location) (name : String) :
    below root (l ++ [name]) = (below root l).child name := by
  simp [below]

theorem exists_child_of_mem_projectFiles {e : Disk.Entry}
    (h : path ∈ projectFiles ignore root e) : ∃ q : FilePath, path = q.child projectFile := by
  obtain ⟨⟨l, node⟩, hfound, rfl⟩ := List.mem_map.mp h
  have hproject := (List.mem_filter.mp hfound).2
  cases node with
  | directory => simp [isProjectFile] at hproject
  | file content =>
    obtain ⟨l', rfl⟩ := List.getLast?_eq_some_iff.mp (by simpa [isProjectFile] using hproject)
    exact ⟨below root l', below_concat root l' projectFile⟩

theorem exists_child_of_discover {paths : List FilePath} (h : discover d root ignore = .ok paths)
    (hpath : path ∈ paths) : ∃ q : FilePath, path = q.child projectFile := by
  unfold discover at h
  split at h
  · obtain rfl := Except.ok.inj h
    exact exists_child_of_mem_projectFiles (List.mem_mergeSort.mp hpath)
  · simp at h

/-- The file at a path is read as a project. -/
def Gives (d : Disk) (root path : FilePath) (p : Project) : Prop :=
  (loadProject d root path).result = .ok p

theorem Gives.exists_parse {p : Project} (h : Gives d root path p) :
    ∃ text name root, d.readText path = .ok text ∧
      (Project.parse text path name root).result = .ok p := by
  unfold Gives loadProject at h
  obtain ⟨text, hread, h⟩ := Logged.result_bind_eq_ok.mp h
  exact ⟨text, _, _, (Logged.result_mapError_eq_ok (x := .ofExcept _)).mp hread, h⟩

theorem Gives.source {p : Project} (h : Gives d root path p) : p.source = some path := by
  obtain ⟨_, _, _, _, hparse⟩ := h.exists_parse
  obtain ⟨_, _, _, _, _, hsource⟩ := Project.parse_eq_ok.mp hparse
  exact hsource

theorem exists_mem_of_gives {paths : List FilePath} {ps : List Project}
    (h : List.Forall₂ (Gives d root) paths ps) : ∀ p ∈ ps, ∃ path ∈ paths, Gives d root path p := by
  induction h with
  | nil => simp
  | @cons path p paths ps hp _ ih =>
    refine List.forall_mem_cons.mpr ⟨⟨path, List.mem_cons_self, hp⟩, fun p' hp' => ?_⟩
    obtain ⟨path', hpath', hgives⟩ := ih p' hp'
    exact ⟨path', List.mem_cons_of_mem _ hpath', hgives⟩

theorem exists_project_of_gives {paths : List FilePath} {ps : List Project}
    (h : List.Forall₂ (Gives d root) paths ps) : ∀ path ∈ paths, ∃ p ∈ ps, Gives d root path p := by
  induction h with
  | nil => simp
  | @cons path p paths ps hp _ ih =>
    refine List.forall_mem_cons.mpr ⟨⟨p, List.mem_cons_self, hp⟩, fun path' hpath' => ?_⟩
    obtain ⟨p', hp', hgives⟩ := ih path' hpath'
    exact ⟨p', List.mem_cons_of_mem _ hp', hgives⟩

/-! ### Reading the files one after another -/

/-- The error with which reading ends at a file, after those that gave `loaded`. -/
inductive StopsAt (d : Disk) (root path : FilePath) (loaded : List Project) : LoadError → Prop where
  | fails {e : LoadError} (h : (loadProject d root path).result = .error e) :
      StopsAt d root path loaded e
  | repeats {p earlier : Project} (h : Gives d root path p)
      (hfind : loaded.find? (·.name = p.name) = some earlier) :
      StopsAt d root path loaded (.duplicateProject p.name (earlier.source.getD ⟨""⟩) path)

variable {loaded ps : List Project} {paths : List FilePath}

/-- What is looked up among the projects is missing when none of them has the name. -/
theorem find?_name_eq_none {name : String} :
    loaded.find? (·.name = name) = none ↔ name ∉ loaded.map (·.name) := by
  simp

theorem loadAll_cons (p : Project) (h : Gives d root path p) :
    (loadAll d root loaded (path :: paths)).result =
      match loaded.find? (·.name = p.name) with
      | some earlier => .error (.duplicateProject p.name (earlier.source.getD ⟨""⟩) path)
      | none => (loadAll d root (loaded ++ [p]) paths).result := by
  unfold Gives at h
  rw [loadAll, Logged.result_bind, h]
  simp only [Bind.bind, Except.bind]
  cases loaded.find? (·.name = p.name) with
  | some earlier => rfl
  | none => exact Logged.result_bind (.debug _) _

theorem loadAll_cons_eq_ok :
    (loadAll d root loaded (path :: paths)).result = .ok ps ↔
      ∃ p, Gives d root path p ∧ p.name ∉ loaded.map (·.name) ∧
        (loadAll d root (loaded ++ [p]) paths).result = .ok ps := by
  constructor
  · intro h
    obtain ⟨p, hp, _⟩ := Logged.result_bind_eq_ok.mp h
    rw [loadAll_cons p hp] at h
    split at h
    · simp at h
    · rename_i hnone
      exact ⟨p, hp, find?_name_eq_none.mp hnone, h⟩
  · rintro ⟨p, hp, hname, h⟩
    rw [loadAll_cons p hp, find?_name_eq_none.mpr hname]
    exact h

theorem loadAll_cons_eq_error {e : LoadError} :
    (loadAll d root loaded (path :: paths)).result = .error e ↔
      StopsAt d root path loaded e ∨
        ∃ p, Gives d root path p ∧ p.name ∉ loaded.map (·.name) ∧
          (loadAll d root (loaded ++ [p]) paths).result = .error e := by
  constructor
  · intro h
    rcases Logged.result_bind_eq_error.mp h with hfails | ⟨p, hp, _⟩
    · exact .inl (.fails hfails)
    · rw [loadAll_cons p hp] at h
      split at h
      · rename_i earlier hfind
        obtain rfl := Except.error.inj h
        exact .inl (.repeats hp hfind)
      · rename_i hnone
        exact .inr ⟨p, hp, find?_name_eq_none.mp hnone, h⟩
  · rintro (hstops | ⟨p, hp, hname, h⟩)
    · cases hstops with
      | fails hfails => exact Logged.result_bind_eq_error.mpr (.inl hfails)
      | repeats hp hfind => rw [loadAll_cons _ hp, hfind]
    · rw [loadAll_cons p hp, find?_name_eq_none.mpr hname]
      exact h

/-- The projects that are read are those of the files, one each, and no two names are the same. -/
theorem loadAll_eq_ok (hloaded : (loaded.map (·.name)).Nodup) :
    (loadAll d root loaded paths).result = .ok ps ↔
      ∃ new, ps = loaded ++ new ∧ List.Forall₂ (Gives d root) paths new ∧
        (ps.map (·.name)).Nodup := by
  induction paths generalizing loaded with
  | nil =>
    simp only [loadAll, Logged.result_pure, Except.ok.injEq, List.forall₂_nil_left_iff]
    constructor
    · rintro rfl
      exact ⟨[], by simp, rfl, hloaded⟩
    · rintro ⟨_, rfl, rfl, _⟩
      simp
  | cons path paths ih =>
    rw [loadAll_cons_eq_ok]
    have hnext : ∀ p : Project, p.name ∉ loaded.map (·.name) →
        ((loaded ++ [p]).map (·.name)).Nodup := by
      intro p hname
      rw [List.map_append, List.nodup_append_comm]
      exact List.nodup_cons.mpr ⟨hname, hloaded⟩
    constructor
    · rintro ⟨p, hp, hname, h⟩
      obtain ⟨new, rfl, hnew, hnodup⟩ := (ih (hnext p hname)).mp h
      exact ⟨p :: new, by simp, .cons hp hnew, hnodup⟩
    · rintro ⟨_, rfl, hall, hnodup⟩
      obtain ⟨p, new, hp, hnew, rfl⟩ := List.forall₂_cons_left_iff.mp hall
      have hname : p.name ∉ loaded.map (·.name) := by
        intro hmem
        rw [List.map_append, List.map_cons] at hnodup
        exact List.disjoint_of_nodup_append hnodup hmem List.mem_cons_self
      refine ⟨p, hp, hname, (ih (hnext p hname)).mpr ⟨new, by simp, hnew, hnodup⟩⟩

/-- Reading ends at the first file that fails or repeats a name: the files before it are read. -/
theorem loadAll_eq_error {e : LoadError} :
    (loadAll d root loaded paths).result = .error e ↔
      ∃ before path after ps, paths = before ++ path :: after ∧
        (loadAll d root loaded before).result = .ok ps ∧ StopsAt d root path ps e := by
  induction paths generalizing loaded with
  | nil => simp [loadAll]
  | cons path paths ih =>
    rw [loadAll_cons_eq_error]
    constructor
    · rintro (hstops | ⟨p, hp, hname, h⟩)
      · exact ⟨[], path, paths, loaded, rfl, rfl, hstops⟩
      · obtain ⟨before, path', after, ps, rfl, hbefore, hstops⟩ := ih.mp h
        exact ⟨path :: before, path', after, ps, rfl,
          loadAll_cons_eq_ok.mpr ⟨p, hp, hname, hbefore⟩, hstops⟩
    · rintro ⟨before, path', after, ps, hpaths, hbefore, hstops⟩
      cases before with
      | nil =>
        obtain ⟨rfl, rfl⟩ := List.cons.inj hpaths
        obtain rfl : loaded = ps := Except.ok.inj hbefore
        exact .inl hstops
      | cons first before =>
        obtain ⟨rfl, rfl⟩ := List.cons.inj hpaths
        obtain ⟨p, hp, hname, hbefore⟩ := loadAll_cons_eq_ok.mp hbefore
        exact .inr ⟨p, hp, hname, ih.mpr ⟨before, path', after, ps, rfl, hbefore, hstops⟩⟩

/-! ### The whole workspace -/

theorem load_eq_ok {w : Workspace} :
    (load d root ignore).result = .ok w ↔
      ∃ paths ps, discover d root ignore = .ok paths ∧ List.Forall₂ (Gives d root) paths ps ∧
        (ps.map (·.name)).Nodup ∧ w = ⟨root, ps.mergeSort fun p q => p.name ≤ q.name⟩ := by
  unfold load
  constructor
  · intro h
    obtain ⟨paths, hpaths, h⟩ := Logged.result_bind_eq_ok.mp h
    obtain ⟨ps, hps, h⟩ := Logged.result_bind_eq_ok.mp h
    obtain ⟨_, rfl, hgives, hnodup⟩ := (loadAll_eq_ok (by simp)).mp hps
    exact ⟨paths, _, hpaths, hgives, hnodup, (Except.ok.inj h).symm⟩
  · rintro ⟨paths, ps, hpaths, hgives, hnodup, rfl⟩
    have hps := (@loadAll_eq_ok d root [] ps paths (by simp)).mpr ⟨ps, rfl, hgives, hnodup⟩
    exact Logged.result_bind_eq_ok.mpr ⟨paths, hpaths, Logged.result_bind_eq_ok.mpr ⟨ps, hps, rfl⟩⟩

theorem load_eq_error {e : LoadError} (hpaths : discover d root ignore = .ok paths) :
    (load d root ignore).result = .error e ↔ (loadAll d root [] paths).result = .error e := by
  unfold load
  rw [Logged.result_bind_eq_error, Logged.result_ofExcept, hpaths]
  constructor
  · rintro (h | ⟨_, hpaths, h⟩)
    · simp at h
    · obtain rfl := Except.ok.inj hpaths
      rcases Logged.result_bind_eq_error.mp h with h | ⟨_, _, h⟩
      · exact h
      · simp at h
  · exact fun h => .inr ⟨paths, rfl, Logged.result_bind_eq_error.mpr (.inl h)⟩

theorem nodup_names_of_load {w : Workspace} (h : (load d root ignore).result = .ok w) :
    (w.projects.map (·.name)).Nodup := by
  obtain ⟨_, ps, _, _, hnodup, rfl⟩ := load_eq_ok.mp h
  exact ((List.mergeSort_perm ps _).map _).nodup_iff.mpr hnodup

/-- Every project of a workspace was read from a project file. -/
theorem exists_gives_of_load {w : Workspace} (h : (load d root ignore).result = .ok w) :
    ∀ p ∈ w.projects, ∃ q : FilePath, Gives d root (q.child projectFile) p := by
  obtain ⟨paths, ps, hpaths, hgives, _, rfl⟩ := load_eq_ok.mp h
  intro p hp
  obtain ⟨path, hpath, hgives⟩ := exists_mem_of_gives hgives p (List.mem_mergeSort.mp hp)
  obtain ⟨q, rfl⟩ := exists_child_of_discover hpaths hpath
  exact ⟨q, hgives⟩

theorem exists_parse_of_load {w : Workspace} (h : (load d root ignore).result = .ok w) :
    ∀ p ∈ w.projects, ∃ q text name root', d.readText (FilePath.child q projectFile) = .ok text ∧
      (Project.parse text (q.child projectFile) name root').result = .ok p := by
  intro p hp
  obtain ⟨q, hgives⟩ := exists_gives_of_load h p hp
  exact ⟨q, hgives.exists_parse⟩

theorem source_of_load {w : Workspace} (h : (load d root ignore).result = .ok w) :
    ∀ p ∈ w.projects, ∀ path ∈ p.source, ∃ q : FilePath, path = q.child projectFile := by
  intro p hp path hpath
  obtain ⟨q, hgives⟩ := exists_gives_of_load h p hp
  rw [Option.mem_def, hgives.source, Option.some_inj] at hpath
  exact ⟨q, hpath.symm⟩

end Workspace

end Workyard
