import Workyard.Project.Reader
import Workyard.Proofs.Json.Records

/-!
# Project files as documents

What the parts of a project file and of its targets are in the document that its text spells, and
what a project has from them.
-/

namespace Workyard.Project

set_option autoImplicit false

open Json

/-! ### Parts of a file -/

namespace Written

def labelSlot : Slot Members where
  field := labelField
  take _ v := v.object?
  takes _ := takes_objectMembers

def nameSlot : Slot Written where
  field := fields.get ⟨0, by decide⟩
  take w v := (optionalText? v).map fun name => { w with name }
  takes w := takes_optionalText.map fun name => ({ w with name } : Written)

def rootSlot : Slot Written where
  field := fields.get ⟨1, by decide⟩
  take w v := (optionalText? v).map fun root => { w with root }
  takes w := takes_optionalText.map fun root => ({ w with root } : Written)

def targetsSlot : Slot Written where
  field := fields.get ⟨2, by decide⟩
  take w v := v.object?.map fun targets => { w with targets }
  takes w := takes_objectMembers.map fun targets => ({ w with targets } : Written)

def metadataSlot : Slot Written where
  field := fields.get ⟨3, by decide⟩
  take w v := (takeRecord [labelSlot] [] v).map fun labels => { w with labels }
  takes w := (takes_record [labelSlot] []).map fun labels => ({ w with labels } : Written)

/-- The fields of a project file, with what they take from their values. -/
def slots : List (Slot Written) :=
  [nameSlot, rootSlot, targetsSlot, metadataSlot]

theorem mem_slots {s : Slot Written} :
    s ∈ slots ↔ s = nameSlot ∨ s = rootSlot ∨ s = targetsSlot ∨ s = metadataSlot := by
  simp [slots]

theorem slots_fields : slots.map (·.field) = fields := rfl

def ofJson? (v : Json) : Option Written :=
  takeRecord slots ⟨none, none, [], []⟩ v

theorem takes_ofJson? :
    Takes (fun depth => Reader.record fields depth ⟨none, none, [], []⟩) ofJson? := by
  rw [← slots_fields]
  exact takes_record slots ⟨none, none, [], []⟩

theorem ofJson?_of_parse {text : String} {d : Json} {w : Written} (hd : Json.parse text = .ok d)
    (hw : parse text = .ok w) : ofJson? d = some w :=
  takes_ofJson?.finish_sound hd hw

theorem parse_of_spells {text : String} {rest : List Char} {v : Json} {w : Written}
    (hspells : Spells True Reader.maxDepth (.value v) text.toList rest)
    (hrest : Reader.skipSpace rest = []) (hw : ofJson? v = some w) : parse text = .ok w :=
  takes_ofJson?.finish_complete hspells hrest hw

/-! ### Targets of a file -/

/-- The member of that name, if it is an object. -/
theorem targets_of_ofJson? {ms : Members} {w : Written} (hkeys : (Members.keys ms).Nodup)
    (h : ofJson? (.object ms) = some w) :
    w.targets = ((Members.get? "targets" ms).map fun v => v.object?.getD []).getD [] := by
  have hset : ∀ {α : Type} {x : Option α} {f : α → Written} {w' : Written},
      x.map f = some w' → ∃ a, x = some a ∧ f a = w' := Option.map_eq_some_iff.mp
  have hfields : takeByName slots ⟨none, none, [], []⟩ ms = some w := h
  refine get_of_takeByName ?_ ?_ (by simp [slotNamed, slots, targetsSlot, fields]) hkeys hfields
  · intro s hs hne r v r' htake
    rcases mem_slots.mp hs with rfl | rfl | rfl | rfl
    · obtain ⟨_, _, rfl⟩ := hset htake
      rfl
    · obtain ⟨_, _, rfl⟩ := hset htake
      rfl
    · exact absurd rfl hne
    · obtain ⟨_, _, rfl⟩ := hset htake
      rfl
  · intro s hs hname r v r' htake
    rcases mem_slots.mp hs with rfl | rfl | rfl | rfl
    · exact absurd hname (by decide)
    · exact absurd hname (by decide)
    · obtain ⟨targets, hobject, rfl⟩ := hset htake
      simp [hobject]
    · exact absurd hname (by decide)

end Written

/-! ### Bodies of targets -/

theorem WrittenTarget.ofFields_eq_ok {executor group options configurations metadata : Option Json}
    {w : WrittenTarget} : ofFields executor group options configurations metadata = .ok w ↔
      fieldOr optionalText none executor = .ok w.executor ∧
      fieldOr optionalText none group = .ok w.group ∧
      fieldOr members [] options = .ok w.options ∧
      fieldOr members [] configurations = .ok w.configurations ∧
      fieldOr metadataLabel none metadata = .ok w.metadataGroup := by
  constructor
  · intro h
    obtain ⟨_, hexecutor, h⟩ := bind_eq_ok.mp h
    obtain ⟨_, hgroup, h⟩ := bind_eq_ok.mp h
    obtain ⟨_, hoptions, h⟩ := bind_eq_ok.mp h
    obtain ⟨_, hconfigurations, h⟩ := bind_eq_ok.mp h
    obtain ⟨_, hmetadata, h⟩ := bind_eq_ok.mp h
    obtain rfl := Except.ok.inj h
    exact ⟨hexecutor, hgroup, hoptions, hconfigurations, hmetadata⟩
  · rintro ⟨hexecutor, hgroup, hoptions, hconfigurations, hmetadata⟩
    refine bind_eq_ok.mpr ⟨_, hexecutor, ?_⟩
    refine bind_eq_ok.mpr ⟨_, hgroup, ?_⟩
    refine bind_eq_ok.mpr ⟨_, hoptions, ?_⟩
    refine bind_eq_ok.mpr ⟨_, hconfigurations, ?_⟩
    exact bind_eq_ok.mpr ⟨_, hmetadata, rfl⟩

/-! ### Projects -/

theorem result_sayStrangers (path : FilePath) (names : List (String × String)) :
    (sayStrangers path names).result = .ok () := by
  induction names with
  | nil => rfl
  | cons n names ih => exact Logged.result_bind_eq_ok.mpr ⟨(), rfl, ih⟩

theorem ofTargets_eq_ok {name root : String} {source : Option FilePath} {targets : List Target}
    {p : Project} : ofTargets name root source targets = .ok p ↔
      p.name = name ∧ p.root = root ∧ p.source = source ∧ p.targets = targets := by
  unfold ofTargets
  constructor
  · intro h
    split at h
    · obtain rfl := Except.ok.inj h
      exact ⟨rfl, rfl, rfl, rfl⟩
    · exact absurd h (by simp)
  · rintro ⟨rfl, rfl, rfl, rfl⟩
    split
    · rfl
    · rename_i hsome
      exact absurd (hsome.symm.trans (repeated?_eq_none.mpr p.nodup)) (by simp)

/-- A file gives a project exactly if its parts do. -/
theorem parse_eq_ok {text name root : String} {path : FilePath} {p : Project} :
    (parse text path name root).result = .ok p ↔
      ∃ w, Written.parse text = .ok w ∧ targetsOf w.labels w.targets = .ok p.targets ∧
        p.name = w.name.getD name ∧ p.root = w.root.getD root ∧ p.source = some path := by
  have hmap : ∀ {α : Type} {x : Except Fault α} {f : Fault → LoadError} {a : α},
      (Logged.ofExcept (x.mapError f)).result = .ok a ↔ x = .ok a := by
    intro α x f a
    exact Logged.result_mapError_eq_ok (x := .ofExcept x)
  unfold parse
  constructor
  · intro h
    obtain ⟨w, hw, h⟩ := Logged.result_bind_eq_ok.mp h
    obtain ⟨targets, htargets, h⟩ := Logged.result_bind_eq_ok.mp h
    obtain ⟨_, _, h⟩ := Logged.result_bind_eq_ok.mp h
    have hproject := ofTargets_eq_ok.mp ((Logged.result_mapError_eq_ok (x := .ofExcept _)).mp h)
    obtain ⟨hname, hroot, hsource, rfl⟩ := hproject
    exact ⟨w, hmap.mp hw, hmap.mp htargets, hname, hroot, hsource⟩
  · rintro ⟨w, hw, htargets, hname, hroot, hsource⟩
    refine Logged.result_bind_eq_ok.mpr ⟨w, hmap.mpr hw, ?_⟩
    refine Logged.result_bind_eq_ok.mpr ⟨p.targets, hmap.mpr htargets, ?_⟩
    refine Logged.result_bind_eq_ok.mpr ⟨(), result_sayStrangers path _, ?_⟩
    refine (Logged.result_mapError_eq_ok (x := .ofExcept _)).mpr ?_
    exact ofTargets_eq_ok.mpr ⟨hname, hroot, hsource, rfl⟩

/-- Defaults do not matter to the targets. -/
theorem parse_with_defaults {text name root : String} {path : FilePath} {p : Project}
    (h : (parse text path name root).result = .ok p) (name' root' : String) :
    ∃ p', (parse text path name' root').result = .ok p' ∧ p'.targets = p.targets := by
  obtain ⟨w, hw, htargets, _, _, hsource⟩ := parse_eq_ok.mp h
  refine ⟨⟨w.name.getD name', w.root.getD root', some path, p.targets, p.nodup⟩, ?_, rfl⟩
  exact parse_eq_ok.mpr ⟨w, hw, htargets, rfl, rfl, rfl⟩

end Workyard.Project
