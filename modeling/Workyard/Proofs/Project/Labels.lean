import Workyard.Proofs.Json.Fields
import Workyard.Proofs.Json.ReadBack
import Workyard.Proofs.Project.Numbers

/-!
# Blank labels

A blank label is no label. One of a target, or among its further data, may be taken out of a project
file and nothing changes. One of a label list may hide the label of a later list: the first list that
names a target decides, and if its label is blank the target gets none.
-/

namespace Workyard

set_option autoImplicit false

open Json Text

namespace Json

def isBlankLabel (v : Json) : Bool :=
  v.string?.any isBlank

/-- Changes the members of an object. -/
def mapMembers (f : Members → Members) : Json → Json
  | .object ms => .object (f ms)
  | v => v

@[simp] theorem object?_mapMembers (f : Members → Members) (v : Json) :
    (v.mapMembers f).object? = v.object?.map f := by
  cases v <;> rfl

theorem fits_mapMembers {f : Members → Members} {depth : Nat} {v : Json}
    (hf : ∀ {n ms}, Fits n (.object ms) → Fits n (.object (f ms))) (h : Fits depth v) :
    Fits depth (v.mapMembers f) := by
  cases v with
  | object ms => exact hf h
  | _ => exact h

end Json

/-- The target with another label if it has none. -/
def Target.orLabel (t : Target) (label : Option String) : Target :=
  { t with group := t.group <|> label }

theorem Target.orLabel_eq_self {t : Target} {label : Option String} :
    t.orLabel label = t ↔ (t.group = none → label = none) := by
  obtain ⟨name, group, executor, options, configurations⟩ := t
  cases group with
  | none => simp [orLabel]
  | some l => simp [orLabel]

namespace Project

/-! ### Taking blank labels out -/

/-- The body of a target without the blank labels in it. -/
def withoutBlankGroups (body : Json) : Json :=
  (body.dropField "group" 1 isBlankLabel).mapField "metadata" 4
    (·.dropField "group" 0 isBlankLabel)

def bodiesWithoutBlankGroups (targets : Members) : Members :=
  targets.map fun m => (m.1, withoutBlankGroups m.2)

/-- The lists of the labels that are not blank. -/
def visibleLists (labels : Members) : Members :=
  labels.filter fun m => !isBlank m.1

/-- A project file without the blank labels in it. -/
def withoutBlankLabels (d : Json) : Json :=
  (d.mapField "targets" 2 (mapMembers bodiesWithoutBlankGroups)).mapField "metadata" 3
    (mapField "targetGroups" 0 (mapMembers visibleLists))

def Written.withoutBlankLabels (w : Written) : Written :=
  { w with targets := bodiesWithoutBlankGroups w.targets, labels := visibleLists w.labels }

def WrittenTarget.withoutBlankGroups (t : WrittenTarget) : WrittenTarget :=
  { t with
    group := t.group.bind Target.cleanLabel
    metadataGroup := t.metadataGroup.bind Target.cleanLabel }

variable {w : Written} {name : String} {labels : Members} {f : Members → Members}

theorem ofJson?_mapTargets (hf : f [] = []) (d : Json) :
    Written.ofJson? (d.mapField "targets" 2 (mapMembers f)) =
      (Written.ofJson? d).map fun w => { w with targets := f w.targets } := by
  have hslots : ∀ s ∈ Written.slots, ∀ (w : Written) v,
      s.take { w with targets := f w.targets }
          (if s.field.name = "targets" then v.mapMembers f else v) =
        (s.take w v).map fun w => { w with targets := f w.targets } := by
    intro s hs w v
    rcases Written.mem_slots.mp hs with rfl | rfl | rfl | rfl
    · rw [if_neg (by decide)]
      simp [Written.nameSlot, Function.comp_def]
    · rw [if_neg (by decide)]
      simp [Written.rootSlot, Function.comp_def]
    · rw [if_pos (by decide)]
      simp [Written.targetsSlot, Function.comp_def]
    · rw [if_neg (by decide)]
      simp [Written.metadataSlot, Function.comp_def]
  have hplace : ∀ j : Fin Written.slots.length,
      (Written.slots.get j).field.name = "targets" ↔ j.val = 2 := by decide
  have hrecord := takeRecord_mapField hplace hslots ⟨none, none, [], []⟩ d
  rwa [hf] at hrecord

theorem takeRecord_mapLists (hf : f [] = []) (v : Json) :
    takeRecord [Written.labelSlot] [] (v.mapField "targetGroups" 0 (mapMembers f)) =
      (takeRecord [Written.labelSlot] [] v).map f := by
  have hslots : ∀ s ∈ [Written.labelSlot], ∀ (labels : Members) v,
      s.take (f labels) (if s.field.name = "targetGroups" then v.mapMembers f else v) =
        (s.take labels v).map f := by
    intro s hs labels v
    obtain rfl := List.mem_singleton.mp hs
    exact object?_mapMembers f v
  have hplace : ∀ j : Fin [Written.labelSlot].length,
      ([Written.labelSlot].get j).field.name = "targetGroups" ↔ j.val = 0 := by decide
  have hrecord := takeRecord_mapField hplace hslots [] v
  rwa [hf] at hrecord

theorem ofJson?_mapLists (hf : f [] = []) (d : Json) :
    Written.ofJson? (d.mapField "metadata" 3 (mapField "targetGroups" 0 (mapMembers f))) =
      (Written.ofJson? d).map fun w => { w with labels := f w.labels } := by
  have hslots : ∀ s ∈ Written.slots, ∀ (w : Written) v,
      s.take { w with labels := f w.labels }
          (if s.field.name = "metadata" then v.mapField "targetGroups" 0 (mapMembers f) else v) =
        (s.take w v).map fun w => { w with labels := f w.labels } := by
    intro s hs w v
    rcases Written.mem_slots.mp hs with rfl | rfl | rfl | rfl
    · rw [if_neg (by decide)]
      simp [Written.nameSlot, Function.comp_def]
    · rw [if_neg (by decide)]
      simp [Written.rootSlot, Function.comp_def]
    · rw [if_neg (by decide)]
      simp [Written.targetsSlot, Function.comp_def]
    · rw [if_pos (by decide)]
      simp [Written.metadataSlot, takeRecord_mapLists hf, Function.comp_def]
  have hplace : ∀ j : Fin Written.slots.length,
      (Written.slots.get j).field.name = "metadata" ↔ j.val = 3 := by decide
  have hrecord := takeRecord_mapField hplace hslots ⟨none, none, [], []⟩ d
  rwa [hf] at hrecord

theorem ofJson?_withoutBlankLabels (d : Json) :
    Written.ofJson? (withoutBlankLabels d) =
      (Written.ofJson? d).map Written.withoutBlankLabels := by
  rw [withoutBlankLabels, ofJson?_mapLists rfl, ofJson?_mapTargets rfl, Option.map_map]
  rfl

theorem fits_withoutBlankLabels {depth : Nat} {d : Json} (h : Fits depth d) :
    Fits depth (withoutBlankLabels d) := by
  have hbody : ∀ {n body}, Fits n body → Fits n (withoutBlankGroups body) := fun hbody =>
    fits_mapField fits_dropField (fits_dropField hbody)
  have hbodies : ∀ {n ms}, Fits n (.object ms) → Fits n (.object (bodiesWithoutBlankGroups ms)) := by
    intro n ms hms
    cases hms with
    | object hkeys hms =>
      have hsame : Members.keys (bodiesWithoutBlankGroups ms) = Members.keys ms := by
        simp [Members.keys, bodiesWithoutBlankGroups]
      refine .object (hsame ▸ hkeys) fun m hm => ?_
      obtain ⟨m, hmem, rfl⟩ := List.mem_map.mp hm
      exact hbody (hms m hmem)
  exact fits_mapField (fits_mapField (fits_mapMembers (fits_filter _)))
    (fits_mapField (fits_mapMembers hbodies) h)

/-! ### Targets -/

namespace WrittenTarget

theorem ofJson_eq_ok {v : Json} {t : WrittenTarget} : ofJson v = .ok t ↔ IsRecord 2 5 v ∧
    ofFields (v.field? "executor" 0) (v.field? "group" 1) (v.field? "options" 2)
      (v.field? "configurations" 3) (v.field? "metadata" 4) = .ok t := by
  cases v with
  | object ms => exact (true_and _).symm.to_iff
  | array vs =>
    rcases vs with _ | ⟨executor, _ | ⟨group, vs⟩⟩
    · simp [ofJson, IsRecord]
    · simp [ofJson, IsRecord]
    · have hlength : 2 ≤ vs.length + 1 + 1 ∧ vs.length + 1 + 1 ≤ 5 ↔ vs.length ≤ 3 := by omega
      simp only [ofJson, IsRecord, field?, List.length_cons, List.getElem?_cons_zero,
        List.getElem?_cons_succ, hlength]
      by_cases hshort : vs.length ≤ 3
      · rw [if_pos hshort, and_iff_right hshort]
      · rw [if_neg hshort]
        exact ⟨fun h => absurd h (by simp), fun h => absurd h.1 hshort⟩
  | _ => simp [ofJson, IsRecord]

theorem metadataLabel_eq_ok {v : Json} {label : Option String} : metadataLabel v = .ok label ↔
    IsRecord 1 1 v ∧ fieldOr optionalText none (v.field? "group" 0) = .ok label := by
  cases v with
  | object ms => exact (true_and _).symm.to_iff
  | array vs =>
    rcases vs with _ | ⟨v, _ | ⟨v', vs⟩⟩
    · simp [metadataLabel, IsRecord]
    · simp [metadataLabel, IsRecord, field?, fieldOr]
    · simp [metadataLabel, IsRecord]
  | _ => simp [metadataLabel, IsRecord]

/-- A blank label is none. -/
theorem cleanLabel_of_optionalText {v : Json} {label : Option String}
    (h : optionalText v = .ok label) :
    label.bind Target.cleanLabel = if isBlankLabel v then none else label := by
  cases v with
  | null =>
    obtain rfl := Except.ok.inj h
    rfl
  | string s =>
    obtain rfl := Except.ok.inj h
    rfl
  | _ => exact absurd h (by simp [optionalText])

theorem fieldOr_dropField {v : Json} {place : Nat} {label : Option String}
    (h : fieldOr optionalText none (v.field? name place) = .ok label) :
    fieldOr optionalText none ((v.dropField name place isBlankLabel).field? name place) =
      .ok (label.bind Target.cleanLabel) := by
  have hfield := @field?_dropField name place isBlankLabel v
  cases hv : v.field? name place with
  | none =>
    rw [hv] at h hfield
    obtain rfl := Except.ok.inj h
    rcases hfield with ⟨hblank, -⟩ | ⟨-, hsame⟩
    · exact absurd hblank (by simp)
    · rw [hsame]
      rfl
  | some x =>
    rw [hv] at h hfield
    rw [cleanLabel_of_optionalText h]
    rcases hfield with ⟨hblank, hgone | hnull⟩ | ⟨hkept, hsame⟩
    · rw [hgone, if_pos (by simpa using hblank)]
      rfl
    · rw [hnull, if_pos (by simpa using hblank)]
      rfl
    · rw [hsame, if_neg (by simpa using hkept)]
      exact h

theorem metadataLabel_dropField {v : Json} {label : Option String}
    (h : metadataLabel v = .ok label) :
    metadataLabel (v.dropField "group" 0 isBlankLabel) = .ok (label.bind Target.cleanLabel) := by
  obtain ⟨hrecord, hfield⟩ := metadataLabel_eq_ok.mp h
  exact metadataLabel_eq_ok.mpr ⟨isRecord_dropField.mpr hrecord, fieldOr_dropField hfield⟩

theorem ofJson_withoutBlankGroups {body : Json} {t : WrittenTarget} (h : ofJson body = .ok t) :
    ofJson (Project.withoutBlankGroups body) = .ok t.withoutBlankGroups := by
  obtain ⟨hrecord, hfields⟩ := ofJson_eq_ok.mp h
  obtain ⟨hexecutor, hgroup, hoptions, hconfigurations, hmetadata⟩ := ofFields_eq_ok.mp hfields
  have hother : ∀ {name place}, name ≠ "group" → place ≠ 1 → name ≠ "metadata" → place ≠ 4 →
      (Project.withoutBlankGroups body).field? name place = body.field? name place := by
    intro name place hname hplace hname' hplace'
    rw [Project.withoutBlankGroups, field?_mapField_of_ne hname' hplace',
      field?_dropField_of_ne hname hplace]
  refine ofJson_eq_ok.mpr ⟨isRecord_mapField.mpr (isRecord_dropField.mpr hrecord), ?_⟩
  refine ofFields_eq_ok.mpr ⟨?_, ?_, ?_, ?_, ?_⟩
  · rwa [hother (by decide) (by decide) (by decide) (by decide)]
  · rw [Project.withoutBlankGroups, field?_mapField_of_ne (by decide) (by decide)]
    exact fieldOr_dropField hgroup
  · rwa [hother (by decide) (by decide) (by decide) (by decide)]
  · rwa [hother (by decide) (by decide) (by decide) (by decide)]
  · rw [Project.withoutBlankGroups, field?_mapField, field?_dropField_of_ne (by decide) (by decide)]
    cases hv : body.field? "metadata" 4 with
    | none =>
      rw [hv] at hmetadata
      have hnone := Except.ok.inj hmetadata
      simp [WrittenTarget.withoutBlankGroups, ← hnone, fieldOr]
    | some v =>
      rw [hv] at hmetadata
      exact metadataLabel_dropField hmetadata

end WrittenTarget

/-! ### Labels -/

/-- A label that is not blank and that one of the sources of labels gives to a target. -/
inductive Written.Offers (w : Written) (name label : String) : Prop
  | own {body : Json} {t : WrittenTarget} (hbody : Members.get? name w.targets = some body)
      (ht : WrittenTarget.ofJson body = .ok t) (hgroup : t.group = some label)
      (hvisible : isBlank label = false) : Offers w name label
  | metadata {body : Json} {t : WrittenTarget} (hbody : Members.get? name w.targets = some body)
      (ht : WrittenTarget.ofJson body = .ok t) (hgroup : t.metadataGroup = some label)
      (hvisible : isBlank label = false) : Offers w name label
  | list {v : Json} (hlist : (label, v) ∈ w.labels) (hname : name ∈ listed v)
      (hvisible : isBlank label = false) : Offers w name label

/-- The first label whose list names the target is blank, and another one is not. -/
def Shadowed (labels : Members) (name : String) : Prop :=
  (∃ m, (labels.find? fun m => (listed m.2).contains name) = some m ∧ isBlank m.1 = true) ∧
    ∃ m ∈ labels, name ∈ listed m.2 ∧ isBlank m.1 = false

theorem bind_cleanLabel_eq_none {label : Option String} :
    label.bind Target.cleanLabel = none ↔ ∀ l, label = some l → isBlank l = true := by
  cases label with
  | none => simp
  | some l => simp [Target.cleanLabel]

theorem bind_cleanLabel_idem (label : Option String) :
    (label.bind Target.cleanLabel).bind Target.cleanLabel = label.bind Target.cleanLabel := by
  cases label with
  | none => rfl
  | some l =>
    by_cases hl : isBlank l = true
    · simp [Target.cleanLabel, hl]
    · simp [Target.cleanLabel, hl]

theorem declaredLabel?_cons (m : String × Json) (labels : Members) (name : String) :
    declaredLabel? (m :: labels) name =
      if name ∈ listed m.2 then Target.cleanLabel m.1 else declaredLabel? labels name := by
  unfold declaredLabel?
  by_cases hname : name ∈ listed m.2
  · simp [hname]
  · simp [hname]

theorem visibleLists_cons (m : String × Json) (labels : Members) :
    visibleLists (m :: labels) =
      if isBlank m.1 then visibleLists labels else m :: visibleLists labels := by
  by_cases hm : isBlank m.1 = true
  · simp [visibleLists, hm]
  · simp [visibleLists, hm]

/-- What the first list says is said by the lists that are not blank, if it says anything. -/
theorem declaredLabel?_orElse (labels : Members) (name : String) :
    (declaredLabel? labels name <|> declaredLabel? (visibleLists labels) name) =
      declaredLabel? (visibleLists labels) name := by
  induction labels with
  | nil => rfl
  | cons m labels ih =>
    rw [visibleLists_cons, declaredLabel?_cons]
    by_cases hname : name ∈ listed m.2
    · rw [if_pos hname]
      by_cases hm : isBlank m.1 = true
      · simp [Target.cleanLabel, hm]
      · simp [declaredLabel?_cons, hname, Target.cleanLabel, hm]
    · rw [if_neg hname]
      by_cases hm : isBlank m.1 = true
      · rwa [if_pos hm]
      · rwa [if_neg hm, declaredLabel?_cons, if_neg hname]

theorem declaredLabel?_visibleLists_eq_none (labels : Members) (name : String) :
    declaredLabel? (visibleLists labels) name = none ↔
      ∀ m ∈ labels, name ∈ listed m.2 → isBlank m.1 = true := by
  induction labels with
  | nil => simp [visibleLists, declaredLabel?]
  | cons m labels ih =>
    rw [visibleLists_cons, List.forall_mem_cons]
    by_cases hm : isBlank m.1 = true
    · simp [hm, ih]
    · rw [if_neg hm, declaredLabel?_cons]
      by_cases hname : name ∈ listed m.2
      · simp [hname, hm, Target.cleanLabel]
      · simp [hname, ih]

theorem shadowed_iff {labels : Members} {name : String} : Shadowed labels name ↔
    declaredLabel? labels name = none ∧ declaredLabel? (visibleLists labels) name ≠ none := by
  rw [ne_eq, declaredLabel?_visibleLists_eq_none]
  constructor
  · rintro ⟨⟨m, hfind, hblank⟩, m', hm', hname, hvisible⟩
    refine ⟨?_, fun hall => ?_⟩
    · rw [declaredLabel?, hfind, Option.bind_some, Target.cleanLabel, if_pos hblank]
    · exact absurd ((hall m' hm' hname).symm.trans hvisible) (by decide)
  · rintro ⟨hnone, hnot⟩
    obtain ⟨m', hm', hname, hvisible⟩ : ∃ m ∈ labels, name ∈ listed m.2 ∧ isBlank m.1 = false := by
      simpa using hnot
    have hsome : (labels.find? fun m => (listed m.2).contains name).isSome = true := by
      rw [List.find?_isSome]
      exact ⟨m', hm', List.contains_iff_mem.mpr hname⟩
    obtain ⟨m, hfind⟩ := Option.isSome_iff_exists.mp hsome
    refine ⟨⟨m, hfind, ?_⟩, m', hm', hname, hvisible⟩
    rw [declaredLabel?, hfind, Option.bind_some] at hnone
    exact (@bind_cleanLabel_eq_none (some m.1)).mp hnone m.1 rfl

/-- Without the blank labels a target has the label that it had, or one that a blank label hid. -/
theorem targetOf_visibleLists (labels : Members) (name : String) (t : WrittenTarget) :
    targetOf (visibleLists labels) name t.withoutBlankGroups =
      (targetOf labels name t).orLabel (declaredLabel? (visibleLists labels) name) := by
  have hlists := declaredLabel?_orElse labels name
  simp only [targetOf, Target.orLabel, WrittenTarget.withoutBlankGroups, bind_cleanLabel_idem]
  cases t.group.bind Target.cleanLabel with
  | some l => rfl
  | none =>
    cases t.metadataGroup.bind Target.cleanLabel with
    | some l => rfl
    | none =>
      exact congrArg (fun group => (⟨name, group, t.executor, t.options, t.configurations⟩ : Target))
        hlists.symm

theorem exists_body {ms : Members} {ts : List Target} {t : Target}
    (h : targetsOf labels ms = .ok ts) (ht : t ∈ ts) : ∃ body b,
      (t.name, body) ∈ ms ∧ WrittenTarget.ofJson body = .ok b ∧ t = targetOf labels t.name b := by
  induction ms generalizing ts with
  | nil =>
    obtain rfl := Except.ok.inj h
    exact absurd ht List.not_mem_nil
  | cons m ms ih =>
    obtain ⟨b, hb, h⟩ := bind_eq_ok.mp h
    obtain ⟨rest, hrest, h⟩ := bind_eq_ok.mp h
    obtain rfl := Except.ok.inj h
    rcases List.mem_cons.mp ht with rfl | ht
    · exact ⟨m.2, b, List.mem_cons_self, hb, rfl⟩
    · obtain ⟨body, b', hmem, hb', heq⟩ := ih hrest ht
      exact ⟨body, b', List.mem_cons_of_mem m hmem, hb', heq⟩

theorem declaredLabel?_of_mem {ms : Members} {ts : List Target} {t : Target}
    (h : targetsOf labels ms = .ok ts) (ht : t ∈ ts) (hgroup : t.group = none) :
    declaredLabel? labels t.name = none := by
  obtain ⟨_, b, -, -, heq⟩ := exists_body h ht
  rw [heq, targetOf] at hgroup
  simp only [Option.orElse_eq_orElse, Option.orElse_eq_or, Option.or_eq_none_iff] at hgroup
  exact hgroup.2.2

theorem names_targetsOf {ms : Members} {ts : List Target} (h : targetsOf labels ms = .ok ts) :
    ts.map (·.name) = Members.keys ms := by
  induction ms generalizing ts with
  | nil =>
    obtain rfl := Except.ok.inj h
    rfl
  | cons m ms ih =>
    obtain ⟨b, hb, h⟩ := bind_eq_ok.mp h
    obtain ⟨rest, hrest, h⟩ := bind_eq_ok.mp h
    obtain rfl := Except.ok.inj h
    rw [List.map_cons, ih hrest]
    rfl

theorem targetsOf_withoutBlankLabels {ms : Members} {ts : List Target}
    (h : targetsOf labels ms = .ok ts) :
    targetsOf (visibleLists labels) (bodiesWithoutBlankGroups ms) =
      .ok (ts.map fun t => t.orLabel (declaredLabel? (visibleLists labels) t.name)) :=
  targetsOf_map (c := fun _ body => withoutBlankGroups body) (fun m _ b hb =>
    ⟨b.withoutBlankGroups, WrittenTarget.ofJson_withoutBlankGroups hb,
      targetOf_visibleLists labels m.1 b⟩) h

/-- Where no label is blank, a target has none exactly if no source gives it one. -/
theorem group_eq_none_iff {ts : List Target} {t : Target} (hkeys : (Members.keys w.targets).Nodup)
    (h : targetsOf w.labels w.targets = .ok ts) (ht : t ∈ ts) :
    (t.orLabel (declaredLabel? (visibleLists w.labels) t.name)).group = none ↔
      ∀ l, ¬ w.Offers t.name l := by
  obtain ⟨body, b, hmem, hb, heq⟩ := exists_body h ht
  have hbody := Members.get?_of_mem hkeys hmem
  have hgroup : (t.orLabel (declaredLabel? (visibleLists w.labels) t.name)).group = none ↔
      b.group.bind Target.cleanLabel = none ∧ b.metadataGroup.bind Target.cleanLabel = none ∧
        declaredLabel? (visibleLists w.labels) t.name = none := by
    have hwithout := targetOf_visibleLists w.labels t.name b
    rw [← heq] at hwithout
    rw [← hwithout]
    simp only [targetOf, WrittenTarget.withoutBlankGroups, bind_cleanLabel_idem,
      Option.orElse_eq_orElse, Option.orElse_eq_or, Option.or_eq_none_iff]
  rw [hgroup, bind_cleanLabel_eq_none, bind_cleanLabel_eq_none,
    declaredLabel?_visibleLists_eq_none]
  constructor
  · rintro ⟨hown, hmetadata, hlists⟩ l hoffers
    cases hoffers with
    | own hbody' hb' hl hvisible =>
      obtain rfl := Option.some.inj (hbody.symm.trans hbody')
      obtain rfl := Except.ok.inj (hb.symm.trans hb')
      exact absurd ((hown l hl).symm.trans hvisible) (by decide)
    | metadata hbody' hb' hl hvisible =>
      obtain rfl := Option.some.inj (hbody.symm.trans hbody')
      obtain rfl := Except.ok.inj (hb.symm.trans hb')
      exact absurd ((hmetadata l hl).symm.trans hvisible) (by decide)
    | list hlist hname hvisible =>
      exact absurd ((hlists _ hlist hname).symm.trans hvisible) (by decide)
  · intro hnone
    refine ⟨fun l hl => ?_, fun l hl => ?_, fun m hm hname => ?_⟩
    · exact Bool.of_not_eq_false fun hvisible => hnone l (.own hbody hb hl hvisible)
    · exact Bool.of_not_eq_false fun hvisible => hnone l (.metadata hbody hb hl hvisible)
    · exact Bool.of_not_eq_false fun hvisible => hnone m.1 (.list hm hname hvisible)

/-- The project in which the lists give labels to targets that have none. -/
def labelledBy (p : Project) (lists : Members) : Project where
  name := p.name
  root := p.root
  source := p.source
  targets := p.targets.map fun t => t.orLabel (declaredLabel? lists t.name)
  nodup := by
    rw [List.map_map]
    exact p.nodup

theorem labelledBy_eq_self {p : Project} {lists : Members} : p.labelledBy lists = p ↔
    ∀ t ∈ p.targets, t.group = none → declaredLabel? lists t.name = none := by
  have htargets : p.labelledBy lists = p ↔
      p.targets.map (fun t => t.orLabel (declaredLabel? lists t.name)) = p.targets := by
    obtain ⟨name, root, source, targets, nodup⟩ := p
    simp [labelledBy]
  have hmap := List.map_inj_left (l := p.targets) (g := id)
    (f := fun t => t.orLabel (declaredLabel? lists t.name))
  rw [List.map_id] at hmap
  rw [htargets, hmap]
  exact forall₂_congr fun t _ => Target.orLabel_eq_self

/-- A project file without its blank labels gives the project in which the lists of the other
labels have their say. That is the same project exactly if no source of labels gives one to a target
without, and exactly if no blank label hides another one from such a target. -/
theorem parse_withoutBlankLabels {text name root : String} {path : FilePath} {p : Project}
    (h : (parse text path name root).result = .ok p) : ∃ w, Written.parse text = .ok w ∧
      (∀ d text' rest, Json.parse text = .ok d →
        Spells True Reader.maxDepth (.value (withoutBlankLabels d)) text'.toList rest →
        Reader.skipSpace rest = [] → Written.parse text' = .ok w.withoutBlankLabels) ∧
      (∀ text', Written.parse text' = .ok w.withoutBlankLabels →
        (parse text' path name root).result = .ok (p.labelledBy (visibleLists w.labels))) ∧
      (∀ t ∈ (p.labelledBy (visibleLists w.labels)).targets,
        t.group = none ↔ ∀ l, ¬ w.Offers t.name l) ∧
      (p.labelledBy (visibleLists w.labels) = p ↔
        ∀ t ∈ p.targets, t.group = none → ∀ l, ¬ w.Offers t.name l) ∧
      (p.labelledBy (visibleLists w.labels) = p ↔
        ∀ t ∈ p.targets, t.group = none → ¬ Shadowed w.labels t.name) := by
  obtain ⟨w, hw, htargets, hname, hroot, hsource⟩ := parse_eq_ok.mp h
  have hkeys : (Members.keys w.targets).Nodup := by
    rw [← names_targetsOf htargets]
    exact p.nodup
  refine ⟨w, hw, ?_, fun text' hw' => ?_, ?_, ?_, ?_⟩
  · intro d text' rest hd hspells hrest
    refine Written.parse_of_spells hspells hrest ?_
    rw [ofJson?_withoutBlankLabels, Written.ofJson?_of_parse hd hw]
    rfl
  · have htargets' := targetsOf_withoutBlankLabels htargets
    exact parse_eq_ok.mpr ⟨_, hw', htargets', hname, hroot, hsource⟩
  · intro t ht
    obtain ⟨t', ht', rfl⟩ := List.mem_map.mp ht
    exact group_eq_none_iff hkeys htargets ht'
  · rw [labelledBy_eq_self]
    refine forall₂_congr fun t ht => forall_congr' fun hgroup => ?_
    rw [← group_eq_none_iff hkeys htargets ht, Target.orLabel, hgroup]
    rfl
  · rw [labelledBy_eq_self]
    refine forall₂_congr fun t ht => forall_congr' fun hgroup => ?_
    rw [shadowed_iff]
    simp [declaredLabel?_of_mem htargets ht hgroup]

/-- Blank labels of each kind: of `a` and `c` in their bodies, of `b` and `c` in their further data,
and of a list. -/
def blankText : String :=
  "\x7b\"targets\":\x7b\"a\":\x7b\"group\":\" \",\"metadata\":\x7b\"group\":\"M\"\x7d\x7d," ++
    "\"b\":\x7b\"metadata\":\x7b\"group\":\"\"\x7d\x7d,\"c\":[null,\"\",\x7b\x7d,\x7b\x7d,[\" \"]]\x7d," ++
    "\"metadata\":\x7b\"targetGroups\":\x7b\"\":[\"x\"],\"G\":[\"b\"]\x7d\x7d\x7d"

/-- A blank label whose list names a target that a later list names too. -/
def hidingText : String :=
  "\x7b\"targets\":\x7b\"a\":\x7b\x7d\x7d," ++
    "\"metadata\":\x7b\"targetGroups\":\x7b\"\":[\"a\"],\"G\":[\"a\"]\x7d\x7d\x7d"

/-- The groups of the targets of a project file. -/
def groupsIn (text : String) : Option (List (Option String)) :=
  (parse text ⟨"project.json"⟩ "p" ".").result.toOption.map fun p => p.targets.map (·.group)

theorem exists_of_groupsIn {text : String} {groups : List (Option String)}
    (h : groupsIn text = some groups) : ∃ p,
      (parse text ⟨"project.json"⟩ "p" ".").result = .ok p ∧ p.targets.map (·.group) = groups := by
  obtain ⟨p, hp, hgroups⟩ := Option.map_eq_some_iff.mp h
  exact ⟨p, result_of_toOption hp, hgroups⟩

theorem parse_withoutBlankLabels_blankText : ∃ d p, Json.parse blankText = .ok d ∧
    (parse blankText ⟨"project.json"⟩ "p" ".").result = .ok p ∧
    (parse (withoutBlankLabels d).pretty ⟨"project.json"⟩ "p" ".").result = .ok p ∧
    p.targets.map (·.group) = [some "M", some "G", none] := by
  have hgroups : groupsIn blankText = some [some "M", some "G", none] := by decide +kernel
  have hnumbers : (Json.parse blankText).toOption.map
      (fun d => (withoutBlankLabels d).numbers.length) = some 0 := by
    decide +kernel
  have hlists : (Written.parse blankText).toOption.map (fun w =>
      (parse blankText ⟨"project.json"⟩ "p" ".").result.toOption.map fun p =>
        p.targets.all fun t => t.group.isSome ||
          (declaredLabel? (visibleLists w.labels) t.name).isNone) = some (some true) := by
    decide +kernel
  obtain ⟨p, hp, hgroups⟩ := exists_of_groupsIn hgroups
  obtain ⟨d, hd, hnumbers⟩ := Option.map_eq_some_iff.mp hnumbers
  have hd := result_of_toOption hd
  have hreread : (withoutBlankLabels d).reread = withoutBlankLabels d := by
    refine (mapNumbers_eq_self_iff _ _).mpr fun n hn => ?_
    rw [List.length_eq_zero_iff.mp hnumbers] at hn
    exact absurd hn List.not_mem_nil
  have hspells := (@spells_pretty True _ (fits_withoutBlankLabels (fits_of_parse hd))).1
  rw [hreread] at hspells
  obtain ⟨w, hw, hspelt, hgives, -⟩ := parse_withoutBlankLabels hp
  have hsame : p.labelledBy (visibleLists w.labels) = p := by
    refine labelledBy_eq_self.mpr fun t ht hgroup => ?_
    rw [hw, hp] at hlists
    have hall := List.all_eq_true.mp (Option.some.inj (Option.some.inj hlists)) t ht
    simpa [hgroup] using hall
  refine ⟨d, p, hd, hp, ?_, hgroups⟩
  rw [← hsame]
  exact hgives _ (hspelt d _ [] hd hspells rfl)

theorem hidden_label_is_lost : ∃ d p p' w, Json.parse hidingText = .ok d ∧
    (withoutBlankLabels d).compact =
      "\x7b\"targets\":\x7b\"a\":\x7b\x7d\x7d,\"metadata\":\x7b\"targetGroups\":\x7b\"G\":[\"a\"]\x7d\x7d\x7d" ∧
    (parse hidingText ⟨"project.json"⟩ "p" ".").result = .ok p ∧
    (parse (withoutBlankLabels d).pretty ⟨"project.json"⟩ "p" ".").result = .ok p' ∧
    p.targets.map (·.group) = [none] ∧ p'.targets.map (·.group) = [some "G"] ∧
    Written.parse hidingText = .ok w ∧ w.Offers "a" "G" := by
  have hgroups : groupsIn hidingText = some [none] := by decide +kernel
  have hclosed : (Json.parse hidingText).toOption.map
        (fun d => ((withoutBlankLabels d).compact, groupsIn (withoutBlankLabels d).pretty)) =
          some ("\x7b\"targets\":\x7b\"a\":\x7b\x7d\x7d,\"metadata\":\x7b\"targetGroups\":\x7b\"G\":[\"a\"]\x7d\x7d\x7d",
            some [some "G"]) ∧
      (Written.parse hidingText).toOption.map
        (fun w => w.labels.map fun m => (m.1, listed m.2)) = some [("", ["a"]), ("G", ["a"])] := by
    decide +kernel
  obtain ⟨p, hp, hgroup⟩ := exists_of_groupsIn hgroups
  obtain ⟨d, hd, hwithout⟩ := Option.map_eq_some_iff.mp hclosed.1
  obtain ⟨hcompact, hgroups'⟩ := Prod.mk.inj hwithout
  obtain ⟨p', hp', hgroup'⟩ := exists_of_groupsIn hgroups'
  obtain ⟨w, hw, hlists⟩ := Option.map_eq_some_iff.mp hclosed.2
  have hlist : ("G", ["a"]) ∈ w.labels.map fun m => (m.1, listed m.2) := by
    rw [hlists]
    decide
  obtain ⟨⟨label, v⟩, hmem, heq⟩ := List.mem_map.mp hlist
  obtain ⟨rfl, hnames⟩ := Prod.mk.inj heq
  refine ⟨d, p, p', w, result_of_toOption hd, hcompact, hp, hp', hgroup, hgroup',
    result_of_toOption hw, .list hmem ?_ (by decide)⟩
  rw [hnames]
  exact List.mem_singleton.mpr rfl

end Project

end Workyard
