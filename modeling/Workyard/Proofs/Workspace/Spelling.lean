import Mathlib.Data.List.Induction
import Workyard.Proofs.Path.Relative
import Workyard.Proofs.Workspace.Discovery

/-!
# Spellings of a workspace

The path of a workspace may be spelled in many ways. Its projects keep their names, roots and
targets under all of them, but for one: a project file in the workspace itself that gives no name.
Its project is called after the last name of the path, and a path that ends in dots has none.
-/

namespace Workyard

set_option autoImplicit false

namespace FilePath

variable {p q : FilePath} {cs : List Component} {name : String}

theorem components_ne_nil (h : p.text ≠ "") : p.components ≠ [] := by
  intro hnil
  cases htext : p.text.toList with
  | nil => exact h (String.toList_eq_nil_iff.mp htext)
  | cons c rest =>
    by_cases hc : c = '/'
    · simp [components, isAbsolute, htext, hc] at hnil
    · obtain ⟨first, more, hsplit⟩ := List.exists_cons_of_ne_nil (Text.splitAt_ne_nil '/' rest)
      simp [components, isAbsolute, segments, htext, hc, Text.splitAt, hsplit, segmentsOf] at hnil

/-- The last of some names further on is the name of a path. -/
theorem fileName?_of_components {names : List String}
    (h : p.components = q.components ++ names.map .name) :
    p.fileName? = names.getLast?.or q.fileName? := by
  unfold fileName?
  rw [h, List.getLast?_append, List.getLast?_map]
  cases names.getLast? with
  | none => rfl
  | some name => rfl

end FilePath

namespace Disk

open FilePath

variable {d : Disk} {p q : FilePath} {l : Location} {name : String}

/-- The name of a path is that of what it leads to. -/
theorem getLast?_place (h : p.fileName? = some name) : (d.place p).getLast? = some name := by
  unfold fileName? at h
  split at h
  · rename_i s hlast
    obtain rfl := Option.some.inj h
    obtain ⟨cs, hcs⟩ := List.getLast?_eq_some_iff.mp hlast
    simp [place, hcs, Component.enter]
  · simp at h

/-- What is in a directory is reached by way of it. -/
theorem reaches_child (h : d.isDirectory q = true) (hname : IsName name) :
    d.Reaches (q.child name) := by
  obtain ⟨hreaches, hdirectory⟩ := isDirectory_iff.mp h
  obtain ⟨hq, hfollow⟩ := locate_eq_ok_iff.mp hreaches
  have hstart : d.start (q.child name) = d.start q := by
    unfold start
    rw [isAbsolute_child hname]
  obtain ⟨htext, _⟩ | ⟨cs, _, htext, hcs⟩ := text_child hname q
  · exact absurd (by assumption) hq
  have hleading : (q.child name).leading = Text.splitAt '/' cs := by
    rw [leading, htext, Text.splitAt_append_cons, Text.splitAt_of_not_mem hname.1,
      List.dropLast_concat]
  have habove : d.follow (d.start q) (Text.splitAt '/' cs) = .ok (d.place q) := by
    rw [segments_text] at hfollow
    rcases hcs with hcs | hcs <;> rw [hcs] at hfollow
    · exact hfollow
    · rw [Text.splitAt_append_cons, follow_append_eq_ok_iff] at hfollow
      obtain ⟨l, hl, hlast⟩ := hfollow
      rw [hl, follow_eq_ok hlast]
      rfl
  have hplace : d.above (q.child name) = d.place q := by
    rw [above, hstart, hleading, ← follow_eq_ok habove]
  refine reaches_iff.mpr ⟨?_, ?_, ?_⟩
  · intro hempty
    rw [hempty] at htext
    simp at htext
  · rw [hstart, hleading, hplace, habove]
  · rw [hplace]
    exact hdirectory

end Disk

namespace Workspace

open Disk

variable {d : Disk} {root root' : FilePath} {ignore : List String} {top l m : Location}
  {ls : List Location} {own own' : Option String} {p q : Project} {ps qs : List Project}

theorem place_below (hl : ∀ name ∈ l, FilePath.IsName name) (root : FilePath) :
    d.place (below root l) = d.place root ++ l := by
  unfold place
  rw [components_below hl, List.foldl_append]
  generalize root.components.foldl FilePath.Component.enter d.here = start
  clear hl
  induction l generalizing start with
  | nil => simp
  | cons name l ih => simpa [FilePath.Component.enter] using ih (start ++ [name])

theorem view_above {name : String} (h : d.view (top ++ (l ++ [name])) ≠ none) :
    d.view (top ++ l) = some .directory := by
  rw [← List.append_assoc] at h
  exact at?_of_append h (by simp)

theorem isDirectory_below (hroot : d.isDirectory root = true)
    (hl : ∀ name ∈ l, FilePath.IsName name)
    (hview : d.view (d.place root ++ l) = some .directory) :
    d.isDirectory (below root l) = true := by
  induction l using List.reverseRecOn with
  | nil => exact hroot
  | append_singleton l name ih =>
    have hnames : ∀ n ∈ l, FilePath.IsName n := fun n hn => hl n (List.mem_append_left _ hn)
    have hname : FilePath.IsName name := hl name (List.mem_append_right _ List.mem_cons_self)
    refine isDirectory_iff.mpr ⟨?_, by rw [place_below hl, hview]⟩
    rw [below_concat]
    exact reaches_child (ih hnames (view_above (by rw [hview]; simp))) hname

/-- What reading a file gives that holds this. -/
def readContent : Content → Except Fault String
  | .text text => .ok text
  | .raw _ => .error .notText

/-- A file below a directory is read from where it stands. -/
theorem readText_eq_below {name : String} {content : Content} (hroot : d.isDirectory root = true)
    (hm : ∀ name ∈ m, FilePath.IsName name) (hname : FilePath.IsName name)
    (hview : d.view (d.place root ++ (m ++ [name])) = some (.file content)) :
    d.readText (below root (m ++ [name])) = readContent content := by
  have hdirectory : d.isDirectory (below root m) = true :=
    isDirectory_below hroot hm (view_above (by rw [hview]; simp))
  have hplace : d.place ((below root m).child name) = d.place root ++ (m ++ [name]) := by
    rw [place_child hname, place_below hm, List.append_assoc]
  rw [below_concat, readText_of_reaches (reaches_child hdirectory hname), hplace, hview]
  cases content <;> rfl

theorem readText_below {name : String} {content : Content} (hroot : d.isDirectory root = true)
    (hm : ∀ name ∈ m, FilePath.IsName name) (hname : FilePath.IsName name)
    (hview : d.view (d.place root ++ (m ++ [name])) = some (.file content)) {text : String} :
    d.readText (below root (m ++ [name])) = .ok text ↔ content = .text text := by
  rw [readText_eq_below hroot hm hname hview]
  cases content <;> simp [readContent]

/-! ### Projects without their paths -/

/-- What a project without a name is called that stands where names lead to from a directory. -/
def nameAt (own : Option String) (m : Location) : String :=
  (m.getLast?.or own).getD ""

def rootAt (m : Location) : String :=
  if m = [] then "." else String.intercalate "/" m

/-- A project without the path it was read from. -/
def detached (p : Project) : Project :=
  { p with source := none }

/-- A file gives a project, its path left out. The directory in which the workspace is found has
its own name, if any, from the path. -/
def GivesAt (d : Disk) (top : Location) (own : Option String) (l : Location) (p : Project) : Prop :=
  ∃ m text w, l = m ++ [projectFile] ∧ d.view (top ++ l) = some (.file (.text text)) ∧
    Project.Written.parse text = .ok w ∧ Project.targetsOf w.labels w.targets = .ok p.targets ∧
    p.name = w.name.getD (nameAt own m) ∧ p.root = w.root.getD (rootAt m) ∧ p.source = none

theorem isName_projectFile : FilePath.IsName projectFile := by
  decide

theorem relativeRoot_of_components {dir : FilePath} (hroot : root.text ≠ "")
    (h : dir.components = root.components ++ m.map .name) : relativeRoot root dir = rootAt m := by
  unfold relativeRoot rootAt
  rw [FilePath.components_relativeTo h (FilePath.components_ne_nil hroot), List.map_map]
  have htext : m.map (FilePath.Component.text ∘ .name) = m :=
    (List.map_congr_left fun _ _ => rfl).trans (List.map_id m)
  rw [htext]
  cases m <;> rfl

/-- The directory of a file as its path tells it. -/
theorem exists_parent_below {name : String} (hm : ∀ name ∈ m, FilePath.IsName name)
    (hname : FilePath.IsName name) (root : FilePath) :
    ∃ dir, (below root (m ++ [name])).parent? = some dir ∧
      dir.components = root.components ++ m.map .name := by
  have hends := FilePath.endsInName_child hname (below root m)
  rw [below_concat]
  refine ⟨_, FilePath.parent?_of_endsInName hends, ?_⟩
  have hparent := FilePath.components_parent hends (FilePath.parent?_of_endsInName hends)
  rw [FilePath.components_child hname, FilePath.lastSegment_child hname, String.ofList_toList,
    List.append_left_inj] at hparent
  rw [← hparent, components_below hm]

/-- What the project file of a directory gives, by where it is. -/
theorem gives_iff (hroot : d.isDirectory root = true) (hm : ∀ name ∈ m, FilePath.IsName name)
    {content : Content}
    (hview : d.view (d.place root ++ (m ++ [projectFile])) = some (.file content)) :
    Gives d root (below root (m ++ [projectFile])) p ↔
      ∃ text w, content = .text text ∧ Project.Written.parse text = .ok w ∧
        Project.targetsOf w.labels w.targets = .ok p.targets ∧
        p.name = w.name.getD (nameAt root.fileName? m) ∧ p.root = w.root.getD (rootAt m) ∧
        p.source = some (below root (m ++ [projectFile])) := by
  obtain ⟨hreaches, _⟩ := isDirectory_iff.mp hroot
  have htext : root.text ≠ "" := (locate_eq_ok_iff.mp hreaches).1
  obtain ⟨dir, hparent, hdir⟩ := exists_parent_below hm isName_projectFile root
  have hname : dir.fileName?.getD "" = nameAt root.fileName? m := by
    rw [FilePath.fileName?_of_components hdir]
    rfl
  have hreads := fun text => @readText_below _ _ _ _ _ hroot hm isName_projectFile hview text
  unfold Gives loadProject
  dsimp only
  rw [hparent, Option.getD_some, hname, relativeRoot_of_components htext hdir]
  constructor
  · intro h
    obtain ⟨text, hread, hparse⟩ := Logged.result_bind_eq_ok.mp h
    obtain ⟨w, hw⟩ := Project.parse_eq_ok.mp hparse
    have hread := (Logged.result_mapError_eq_ok (x := .ofExcept _)).mp hread
    exact ⟨text, w, (hreads text).mp hread, hw⟩
  · rintro ⟨text, w, hcontent, hw⟩
    refine Logged.result_bind_eq_ok.mpr ⟨text, ?_, Project.parse_eq_ok.mpr ⟨w, hw⟩⟩
    exact (Logged.result_mapError_eq_ok (x := .ofExcept _)).mpr ((hreads text).mpr hcontent)

theorem IsProjectAt.exists_directory (h : IsProjectAt d top ignore l) :
    ∃ m, l = m ++ [projectFile] :=
  List.getLast?_eq_some_iff.mp h.named

theorem givesAt_iff (hd : d.root.WellNamed) (hroot : d.isDirectory root = true)
    (hl : IsProjectAt d (d.place root) ignore l) :
    GivesAt d (d.place root) root.fileName? l p ↔
      ∃ q, Gives d root (below root l) q ∧ detached q = p := by
  obtain ⟨content, hview⟩ := hl.file
  obtain ⟨m, rfl⟩ := hl.exists_directory
  have hm : ∀ name ∈ m, FilePath.IsName name := fun name hname =>
    hl.isName hd name (List.mem_append_left _ hname)
  constructor
  · rintro ⟨m', text, w, hm', hview', hw, htargets, hname, hrootOf, hsource⟩
    obtain rfl := List.append_cancel_right hm'
    obtain rfl : content = .text text := by simpa [hview] using hview'
    refine ⟨{ p with source := some (below root (m ++ [projectFile])) }, ?_, ?_⟩
    · exact (gives_iff hroot hm hview).mpr ⟨text, w, rfl, hw, htargets, hname, hrootOf, rfl⟩
    · unfold detached
      rw [← hsource]
  · rintro ⟨q, hq, rfl⟩
    obtain ⟨text, w, rfl, hw, htargets, hname, hrootOf, _⟩ := (gives_iff hroot hm hview).mp hq
    exact ⟨m, text, w, rfl, hview, hw, htargets, hname, hrootOf, rfl⟩

theorem forall₂_givesAt_iff (hd : d.root.WellNamed) (hroot : d.isDirectory root = true)
    (hls : ∀ l ∈ ls, IsProjectAt d (d.place root) ignore l) :
    List.Forall₂ (GivesAt d (d.place root) root.fileName?) ls ps ↔
      ∃ qs, List.Forall₂ (Gives d root) (ls.map (below root)) qs ∧ qs.map detached = ps := by
  induction ls generalizing ps with
  | nil => simp [eq_comm]
  | cons l ls ih =>
    obtain ⟨hl, hls⟩ := List.forall_mem_cons.mp hls
    rw [List.map_cons]
    constructor
    · intro h
      obtain ⟨p, ps, hp, hps, rfl⟩ := List.forall₂_cons_left_iff.mp h
      obtain ⟨q, hq, rfl⟩ := (givesAt_iff hd hroot hl).mp hp
      obtain ⟨qs, hqs, rfl⟩ := (ih hls).mp hps
      exact ⟨q :: qs, .cons hq hqs, rfl⟩
    · rintro ⟨_, h, rfl⟩
      obtain ⟨q, qs, hq, hqs, rfl⟩ := List.forall₂_cons_left_iff.mp h
      exact .cons ((givesAt_iff hd hroot hl).mpr ⟨q, hq, rfl⟩) ((ih hls).mpr ⟨qs, hqs, rfl⟩)

/-- The projects of a workspace in their order, without their paths, if it can be loaded. -/
def outcome (d : Disk) (root : FilePath) (ignore : List String) : Option (List Project) :=
  (load d root ignore).result.toOption.map fun w => w.projects.map detached

/-- Loading depends on the path of the workspace by its place and its name alone. -/
theorem outcome_eq_some (hd : d.root.WellNamed) (hroot : d.isDirectory root = true)
    (hls : Located d (d.place root) ignore ls) :
    outcome d root ignore = some ps ↔
      ∃ qs, List.Forall₂ (GivesAt d (d.place root) root.fileName?) ls qs ∧
        (qs.map (·.name)).Nodup ∧ ps = qs.mergeSort fun p q => p.name ≤ q.name := by
  have hgives := fun ps => @forall₂_givesAt_iff d root ignore ls ps hd hroot fun l hl =>
    (hls.mem_iff l).mp hl
  obtain ⟨ls', hdiscover, hls'⟩ := @exists_located d root ignore hd hroot
  obtain rfl := hls.unique hls'
  have hnames : ∀ qs : List Project, (qs.map detached).map (·.name) = qs.map (·.name) := fun qs => by
    rw [List.map_map]
    rfl
  have hsorted : ∀ qs : List Project, (qs.mergeSort fun p q => p.name ≤ q.name).map detached =
      (qs.map detached).mergeSort fun p q => p.name ≤ q.name := fun qs =>
    List.map_mergeSort fun _ _ _ _ => rfl
  have hloads : outcome d root ignore = some ps ↔
      ∃ w, (load d root ignore).result = .ok w ∧ w.projects.map detached = ps := by
    unfold outcome
    cases (load d root ignore).result <;> simp [Except.toOption]
  rw [hloads]
  constructor
  · rintro ⟨w, hw, rfl⟩
    obtain ⟨paths, qs, hpaths, hqs, hnodup, rfl⟩ := load_eq_ok.mp hw
    obtain rfl := Except.ok.inj (hdiscover.symm.trans hpaths)
    refine ⟨qs.map detached, (hgives _).mpr ⟨qs, hqs, rfl⟩, ?_, hsorted qs⟩
    rwa [hnames]
  · rintro ⟨_, hgiven, hnodup, rfl⟩
    obtain ⟨qs, hqs, rfl⟩ := (hgives _).mp hgiven
    rw [hnames] at hnodup
    exact ⟨_, load_eq_ok.mpr ⟨_, qs, hdiscover, hqs, hnodup, rfl⟩, hsorted qs⟩

/-! ### Two spellings -/

theorem GivesAt.unique (hp : GivesAt d top own l p) (hq : GivesAt d top own l q) : p = q := by
  obtain ⟨m, text, w, rfl, hview, hw, htargets, hname, hroot, hsource⟩ := hp
  obtain ⟨m', text', w', hm', hview', hw', htargets', hname', hroot', hsource'⟩ := hq
  obtain rfl := List.append_cancel_right hm'
  obtain rfl : text = text' := by simpa [hview] using hview'
  obtain rfl := Except.ok.inj (hw.symm.trans hw')
  have htargets := Except.ok.inj (htargets.symm.trans htargets')
  obtain ⟨name, root, source, targets, _⟩ := p
  obtain ⟨name', root', source', targets', _⟩ := q
  dsimp only at *
  subst htargets hname hname' hroot hroot' hsource hsource'
  rfl

/-- The workspace has a project file of its own that gives no name. -/
structure OwnUnnamed (d : Disk) (top : Location) (ignore : List String) : Prop where
  searched : IsProjectAt d top ignore [projectFile]
  unnamed : ∃ text w, d.view (top ++ [projectFile]) = some (.file (.text text)) ∧
    Project.Written.parse text = .ok w ∧ w.name = none

/-- A project file has the same project whatever the workspace is called, unless it is the one in
the workspace itself and gives no name. -/
theorem GivesAt.of_named (h : GivesAt d top own l p) (hl : IsProjectAt d top ignore l)
    (howned : l = [projectFile] → ¬ OwnUnnamed d top ignore) : GivesAt d top own' l p := by
  obtain ⟨m, text, w, rfl, hview, hw, htargets, hname, hroot⟩ := h
  refine ⟨m, text, w, rfl, hview, hw, htargets, ?_, hroot⟩
  by_cases hm : m = []
  · subst hm
    cases hwritten : w.name with
    | none => exact absurd ⟨hl, text, w, hview, hw, hwritten⟩ (howned rfl)
    | some name => rw [hname, hwritten, Option.getD_some, Option.getD_some]
  · obtain ⟨name, hlast⟩ := Option.isSome_iff_exists.mp (List.getLast?_isSome.mpr hm)
    rw [hname, nameAt, nameAt, hlast]
    rfl

theorem OwnUnnamed.name_eq (h : OwnUnnamed d top ignore) (hp : GivesAt d top own [projectFile] p) :
    p.name = own.getD "" := by
  obtain ⟨text, w, hview, hw, hname⟩ := h.unnamed
  obtain ⟨m, text', w', hm, hview', hw', _, hname', _⟩ := hp
  obtain rfl : m = [] := by simpa using hm
  obtain rfl : text = text' := by simpa [hview] using hview'
  obtain rfl := Except.ok.inj (hw.symm.trans hw')
  rw [hname', hname]
  rfl

theorem exists_of_forall₂ (h : List.Forall₂ (GivesAt d top own) ls ps) (hl : l ∈ ls) :
    ∃ p ∈ ps, GivesAt d top own l p := by
  induction h with
  | nil => simp at hl
  | cons hp _ ih =>
    rcases List.mem_cons.mp hl with rfl | hl
    · exact ⟨_, List.mem_cons_self, hp⟩
    · obtain ⟨q, hq, hgives⟩ := ih hl
      exact ⟨q, List.mem_cons_of_mem _ hq, hgives⟩

theorem exists_location_of_forall₂ (h : List.Forall₂ (GivesAt d top own) ls ps) (hp : p ∈ ps) :
    ∃ l ∈ ls, GivesAt d top own l p := by
  induction h with
  | nil => simp at hp
  | cons hq _ ih =>
    rcases List.mem_cons.mp hp with rfl | hp
    · exact ⟨_, List.mem_cons_self, hq⟩
    · obtain ⟨l, hl, hgives⟩ := ih hp
      exact ⟨l, List.mem_cons_of_mem _ hl, hgives⟩

/-- Where no two projects have one name, a project is that of one file only. -/
theorem location_unique {l' : Location} (h : List.Forall₂ (GivesAt d top own) ls ps)
    (hnodup : (ps.map (·.name)).Nodup) (hl : l ∈ ls) (hl' : l' ∈ ls) (hp : GivesAt d top own l p)
    (hp' : GivesAt d top own l' p) : l = l' := by
  induction h with
  | nil => simp at hl
  | @cons first q ls ps hq hps ih =>
    rw [List.map_cons, List.nodup_cons] at hnodup
    have habsent : ∀ {l : Location}, l ∈ ls → GivesAt d top own l q → False := by
      intro l hl hgives
      obtain ⟨q', hq', hgives'⟩ := exists_of_forall₂ hps hl
      rw [hgives'.unique hgives] at hq'
      exact hnodup.1 (List.mem_map_of_mem hq')
    rcases List.mem_cons.mp hl with rfl | htail
    · rcases List.mem_cons.mp hl' with rfl | htail'
      · rfl
      · rw [hp.unique hq] at hp'
        exact (habsent htail' hp').elim
    · rcases List.mem_cons.mp hl' with rfl | htail'
      · rw [hp'.unique hq] at hp
        exact (habsent htail hp).elim
      · exact ih hnodup.2 htail htail'

theorem isName_of_mem_place (hd : d.root.WellNamed) (hroot : d.isDirectory root = true) :
    ∀ name ∈ d.place root, FilePath.IsName name := by
  obtain ⟨es, hes⟩ := find?_of_view_directory (isDirectory_iff.mp hroot).2
  exact (hd.find? hes).1

/-- With a name for the workspace and without one, a file of its own that gives no name gives
different projects. -/
theorem outcome_ne {name : String} (hd : d.root.WellNamed) (hroot : d.isDirectory root = true)
    (hroot' : d.isDirectory root' = true) (hplace : d.place root' = d.place root)
    (hname : root.fileName? = some name) (hnone : root'.fileName? = none)
    (hown : OwnUnnamed d (d.place root) ignore) (h : outcome d root ignore = some ps) :
    outcome d root' ignore ≠ some ps := by
  intro h'
  obtain ⟨ls, _, hls⟩ := @exists_located d root ignore hd hroot
  obtain ⟨qs, hqs, _, rfl⟩ := (outcome_eq_some hd hroot hls).mp h
  obtain ⟨qs', hqs', hnodup', hsorted⟩ := (outcome_eq_some hd hroot' (hplace ▸ hls)).mp h'
  rw [hname] at hqs
  rw [hplace, hnone] at hqs'
  have hmem : [projectFile] ∈ ls := (hls.mem_iff _).mpr hown.searched
  obtain ⟨p, hp, hgives⟩ := exists_of_forall₂ hqs' hmem
  -- The project without a name is read on the other side as well, so from some other file there.
  have hp' : p ∈ qs := by
    have hp' : p ∈ qs'.mergeSort fun p q => decide (p.name ≤ q.name) := List.mem_mergeSort.mpr hp
    rw [← hsorted] at hp'
    exact List.mem_mergeSort.mp hp'
  obtain ⟨l, hl, hgives'⟩ := exists_location_of_forall₂ hqs hp'
  have hother : l ≠ [projectFile] := by
    rintro rfl
    have hempty := hown.name_eq hgives
    rw [hown.name_eq hgives'] at hempty
    exact (isName_of_mem_place hd hroot _ (List.mem_of_getLast? (getLast?_place hname))).2.1 hempty
  have hnamed : GivesAt d (d.place root) none l p :=
    hgives'.of_named ((hls.mem_iff l).mp hl) fun heq => absurd heq hother
  exact hother (location_unique hqs' hnodup' hl hmem hnamed hgives)

theorem forall₂_givesAt_imp (h : List.Forall₂ (GivesAt d top own) ls ps)
    (himp : ∀ l ∈ ls, ∀ p, GivesAt d top own l p → GivesAt d top own' l p) :
    List.Forall₂ (GivesAt d top own') ls ps := by
  induction h with
  | nil => exact .nil
  | cons hp _ ih =>
    obtain ⟨hfirst, hrest⟩ := List.forall_mem_cons.mp himp
    exact .cons (hfirst _ hp) (ih hrest)

theorem outcome_congr (hd : d.root.WellNamed) (hroot : d.isDirectory root = true)
    (hroot' : d.isDirectory root' = true) (hplace : d.place root' = d.place root)
    (h : root.fileName? = root'.fileName? ∨ ¬ OwnUnnamed d (d.place root) ignore) :
    outcome d root ignore = outcome d root' ignore := by
  obtain ⟨ls, _, hls⟩ := @exists_located d root ignore hd hroot
  have hgives : ∀ {ps : List Project}, List.Forall₂ (GivesAt d (d.place root) root.fileName?) ls ps ↔
      List.Forall₂ (GivesAt d (d.place root) root'.fileName?) ls ps := by
    intro ps
    rcases h with hsame | hnamed
    · rw [hsame]
    · have himp : ∀ {own own' : Option String}, ∀ l ∈ ls, ∀ p,
          GivesAt d (d.place root) own l p → GivesAt d (d.place root) own' l p :=
        fun l hl p hp => hp.of_named ((hls.mem_iff l).mp hl) fun _ => hnamed
      exact ⟨fun hps => forall₂_givesAt_imp hps himp, fun hps => forall₂_givesAt_imp hps himp⟩
  refine Option.ext fun ps => ?_
  rw [outcome_eq_some hd hroot hls, outcome_eq_some hd hroot' (hplace ▸ hls), hplace]
  simp only [hgives]

theorem fileName?_eq_of_isSome (hplace : d.place root' = d.place root)
    (h : root.fileName?.isSome = root'.fileName?.isSome) : root.fileName? = root'.fileName? := by
  cases hroot : root.fileName? with
  | none =>
    rw [hroot] at h
    exact (Option.not_isSome_iff_eq_none.mp (by simp [← h])).symm
  | some name =>
    obtain ⟨name', hroot'⟩ := Option.isSome_iff_exists.mp (h.symm.trans (by rw [hroot]; rfl))
    have hlast := getLast?_place (d := d) hroot
    rw [← hplace, getLast?_place hroot'] at hlast
    rw [hroot', hlast]

/-- Two spellings of a workspace load the same just when both end in a name or neither does, or its
own project file does not matter. -/
theorem outcome_eq_iff (hd : d.root.WellNamed) (hroot : d.isDirectory root = true)
    (hroot' : d.isDirectory root' = true) (hplace : d.place root' = d.place root) :
    outcome d root ignore = outcome d root' ignore ↔
      root.fileName?.isSome = root'.fileName?.isSome ∨ ¬ OwnUnnamed d (d.place root) ignore ∨
        outcome d root ignore = none ∧ outcome d root' ignore = none := by
  constructor
  · intro heq
    by_contra! hdiffer
    obtain ⟨hsome, hown, hloads⟩ := hdiffer
    obtain ⟨ps, hps⟩ : ∃ ps, outcome d root ignore = some ps := by
      cases hnone : outcome d root ignore with
      | none => exact absurd (heq.symm.trans hnone) (hloads hnone)
      | some ps => exact ⟨ps, rfl⟩
    cases hname : root.fileName? with
    | some name =>
      cases hname' : root'.fileName? with
      | some name' => simp [hname, hname'] at hsome
      | none => exact outcome_ne hd hroot hroot' hplace hname hname' hown hps (heq ▸ hps)
    | none =>
      cases hname' : root'.fileName? with
      | none => simp [hname, hname'] at hsome
      | some name' =>
        exact outcome_ne hd hroot' hroot hplace.symm hname' hname (hplace ▸ hown) (heq ▸ hps) hps
  · rintro (hsome | hown | ⟨hnone, hnone'⟩)
    · exact outcome_congr hd hroot hroot' hplace (.inl (fileName?_eq_of_isSome hplace hsome))
    · exact outcome_congr hd hroot hroot' hplace (.inr hown)
    · rw [hnone, hnone']

/-- What a project that was loaded has from where its file stands. -/
structure NamedByPlace (d : Disk) (root : FilePath) (p : Project) (m : Location)
    (w : Project.Written) : Prop where
  source : p.source = some (below root (m ++ [projectFile]))
  written : ∃ text, d.view (d.place root ++ (m ++ [projectFile])) = some (.file (.text text)) ∧
    Project.Written.parse text = .ok w
  rooted : p.root = w.root.getD (rootAt m)
  named : ∀ name, w.name = some name → p.name = name
  /-- A name that is missing is that of the directory. -/
  unnamed : w.name = none → (m ≠ [] ∨ root.fileName?.isSome = true) →
    (d.place root ++ m).getLast? = some p.name ∧ p.name ≠ ""
  /-- There is none where the path of the workspace itself ends in no name. -/
  nameless : w.name = none → m = [] → root.fileName? = none → p.name = ""

theorem exists_namedByPlace (hd : d.root.WellNamed) (hroot : d.isDirectory root = true)
    {w : Workspace} (h : (load d root ignore).result = .ok w) (hp : p ∈ w.projects) :
    ∃ m written, NamedByPlace d root p m written := by
  obtain ⟨ls, hdiscover, hls⟩ := @exists_located d root ignore hd hroot
  obtain ⟨paths, ps, hpaths, hps, _, rfl⟩ := load_eq_ok.mp h
  obtain rfl := Except.ok.inj (hdiscover.symm.trans hpaths)
  obtain ⟨path, hpath, hgives⟩ := exists_mem_of_gives hps p (List.mem_mergeSort.mp hp)
  obtain ⟨l, hmem, rfl⟩ := List.mem_map.mp hpath
  have hl := (hls.mem_iff l).mp hmem
  obtain ⟨content, hview⟩ := hl.file
  obtain ⟨m, rfl⟩ := hl.exists_directory
  have hm : ∀ name ∈ m, FilePath.IsName name := fun name hname =>
    hl.isName hd name (List.mem_append_left _ hname)
  obtain ⟨text, written, rfl, hw, _, hname, hrooted, hsource⟩ := (gives_iff hroot hm hview).mp hgives
  refine ⟨m, written, hsource, ⟨text, hview, hw⟩, hrooted, ?_, ?_, ?_⟩
  · intro name hwritten
    rw [hname, hwritten, Option.getD_some]
  · intro hwritten hends
    rw [hwritten, Option.getD_none] at hname
    have hlast : (d.place root ++ m).getLast? = some p.name := by
      rw [hname, nameAt, List.getLast?_append]
      cases hm : m.getLast? with
      | some name => rfl
      | none =>
        obtain rfl := List.getLast?_eq_none_iff.mp hm
        obtain ⟨name, hroot⟩ := Option.isSome_iff_exists.mp (hends.resolve_left fun hne => hne rfl)
        rw [getLast?_place hroot, hroot]
        rfl
    refine ⟨hlast, ?_⟩
    rcases List.mem_append.mp (List.mem_of_getLast? hlast) with hplace | hbelow
    · exact (isName_of_mem_place hd hroot _ hplace).2.1
    · exact (hm _ hbelow).2.1
  · rintro hwritten rfl hnone
    rw [hname, hwritten, nameAt, hnone]
    rfl

/-- How far the spelling of a workspace matters. -/
theorem load_respelled (hd : d.root.WellNamed) (hroot : d.isDirectory root = true)
    (hroot' : d.isDirectory root' = true) (hplace : d.place root' = d.place root) :
    (outcome d root ignore = outcome d root' ignore ↔
      root.fileName?.isSome = root'.fileName?.isSome ∨ ¬ OwnUnnamed d (d.place root) ignore ∨
        outcome d root ignore = none ∧ outcome d root' ignore = none) ∧
    ∀ w, (load d root ignore).result = .ok w →
      ∀ p ∈ w.projects, ∃ m written, NamedByPlace d root p m written :=
  ⟨outcome_eq_iff hd hroot hroot' hplace, fun _ hw _ hp => exists_namedByPlace hd hroot hw hp⟩

/-- A workspace with a project file of its own that gives no name, and a directory in it. -/
def selfNamed : Disk :=
  ⟨.directory [("ws", .directory [("project.json", .file (.text "\x7b\x7d")),
    ("apps", .directory [])])], []⟩

theorem wellNamed_selfNamed : selfNamed.root.WellNamed := by
  refine .directory (by simpa using by decide) (by decide) ?_
  simp only [List.forall_mem_cons]
  refine ⟨.directory ?_ (by decide) ?_, by simp⟩
  · simp only [List.forall_mem_cons]
    exact ⟨by decide, by decide, by simp⟩
  · simp only [List.forall_mem_cons]
    exact ⟨.file _, .directory (by simp) (by simp) (by simp), by simp⟩

theorem load_respelled_selfNamed :
    selfNamed.isDirectory ⟨"./ws"⟩ = true ∧ selfNamed.isDirectory ⟨"ws/apps/../../ws/"⟩ = true ∧
      selfNamed.place ⟨"ws/apps/../../ws/"⟩ = selfNamed.place ⟨"./ws"⟩ ∧
      outcome selfNamed ⟨"./ws"⟩ [] = outcome selfNamed ⟨"ws/apps/../../ws/"⟩ [] :=
  ⟨by decide, by decide, by decide,
    (load_respelled wellNamed_selfNamed (by decide) (by decide) (by decide)).1.mpr
      (.inl (by decide))⟩

/-- The directory is called `ws`, and its project has no name when the path ends in two dots. -/
theorem parent_spelling_loses_name :
    selfNamed.isDirectory ⟨"ws"⟩ = true ∧ selfNamed.isDirectory ⟨"ws/apps/.."⟩ = true ∧
      selfNamed.place ⟨"ws/apps/.."⟩ = selfNamed.place ⟨"ws"⟩ ∧
      (outcome selfNamed ⟨"ws"⟩ []).map (·.map (·.name)) = some ["ws"] ∧
      (outcome selfNamed ⟨"ws/apps/.."⟩ []).map (·.map (·.name)) = some [""] := by
  refine ⟨by decide, by decide, by decide, ?_, ?_⟩
  · decide +kernel
  · decide +kernel

end Workspace

end Workyard
