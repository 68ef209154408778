import Workyard.Proofs.Project.Written

/-!
# Projects with other numbers

The numbers in a project file do not matter to its project, beyond being in the options and in the
configurations of its targets.
-/

namespace Workyard

set_option autoImplicit false

open Json

variable {f : Number → Number}

def Target.mapNumbers (f : Number → Number) (t : Target) : Target :=
  { t with options := t.options.mapNumbers f, configurations := t.configurations.mapNumbers f }

namespace Json

@[simp] theorem string?_mapNumbers (v : Json) : (v.mapNumbers f).string? = v.string? := by
  cases v <;> simp [string?]

@[simp] theorem object?_mapNumbers (v : Json) :
    (v.mapNumbers f).object? = v.object?.map (Members.mapNumbers f) := by
  cases v <;> simp [object?, Members.mapNumbers]

@[simp] theorem optionalText?_mapNumbers (v : Json) :
    optionalText? (v.mapNumbers f) = optionalText? v := by
  cases v <;> simp [optionalText?]

end Json

namespace Project

/-! ### Parts of a file -/

namespace Written

def mapNumbers (f : Number → Number) (w : Written) : Written :=
  { w with targets := w.targets.mapNumbers f, labels := w.labels.mapNumbers f }

theorem labels_mapNumbers (v : Json) :
    takeRecord [labelSlot] [] (v.mapNumbers f) =
      (takeRecord [labelSlot] [] v).map (Members.mapNumbers f) := by
  refine takeRecord_mapNumbers (g := Members.mapNumbers f) ?_ [] v
  intro s hs r v
  obtain rfl := List.mem_singleton.mp hs
  exact object?_mapNumbers v

theorem ofJson?_mapNumbers (v : Json) :
    ofJson? (v.mapNumbers f) = (ofJson? v).map (mapNumbers f) := by
  refine takeRecord_mapNumbers (g := mapNumbers f) ?_ ⟨none, none, [], []⟩ v
  intro s hs w v
  rcases mem_slots.mp hs with rfl | rfl | rfl | rfl
  · simp [nameSlot, mapNumbers, Function.comp_def]
  · simp [rootSlot, mapNumbers, Function.comp_def]
  · simp [targetsSlot, mapNumbers, Function.comp_def]
  · simp [metadataSlot, labels_mapNumbers, mapNumbers, Function.comp_def]

end Written

/-! ### Targets -/

namespace WrittenTarget

def mapNumbers (f : Number → Number) (w : WrittenTarget) : WrittenTarget :=
  { w with options := w.options.mapNumbers f, configurations := w.configurations.mapNumbers f }

theorem optionalText_mapNumbers (v : Json) : optionalText (v.mapNumbers f) = optionalText v := by
  cases v <;> simp [optionalText]

theorem members_mapNumbers (v : Json) :
    members (v.mapNumbers f) = (members v).map (Members.mapNumbers f) := by
  cases v <;> simp [members, Members.mapNumbers, Except.map]

theorem fieldOr_optionalText_mapNumbers (v : Option Json) :
    fieldOr optionalText none (v.map (Json.mapNumbers f)) = fieldOr optionalText none v := by
  cases v with
  | none => rfl
  | some v => exact optionalText_mapNumbers v

theorem fieldOr_members_mapNumbers (v : Option Json) :
    fieldOr members [] (v.map (Json.mapNumbers f)) =
      (fieldOr members [] v).map (Members.mapNumbers f) := by
  cases v with
  | none => rfl
  | some v => exact members_mapNumbers v

theorem metadataLabel_mapNumbers (v : Json) : metadataLabel (v.mapNumbers f) = metadataLabel v := by
  cases v with
  | object ms =>
    rw [mapNumbers_object]
    have hget := Members.get?_mapNumbers (f := f) "group" ms
    unfold Members.mapNumbers at hget
    rw [metadataLabel, hget, fieldOr_optionalText_mapNumbers, metadataLabel]
  | array vs =>
    rw [mapNumbers_array]
    rcases vs with _ | ⟨v, _ | ⟨v', vs⟩⟩
    · rfl
    · exact optionalText_mapNumbers v
    · rfl
  | _ => simp [metadataLabel]

theorem ofFields_mapNumbers (executor group options configurations metadata : Option Json) :
    ofFields (executor.map (Json.mapNumbers f)) (group.map (Json.mapNumbers f))
        (options.map (Json.mapNumbers f)) (configurations.map (Json.mapNumbers f))
        (metadata.map (Json.mapNumbers f)) =
      (ofFields executor group options configurations metadata).map (mapNumbers f) := by
  have hmetadata : fieldOr metadataLabel none (metadata.map (Json.mapNumbers f)) =
      fieldOr metadataLabel none metadata := by
    cases metadata with
    | none => rfl
    | some v => exact metadataLabel_mapNumbers v
  unfold ofFields
  rw [fieldOr_optionalText_mapNumbers, fieldOr_optionalText_mapNumbers, fieldOr_members_mapNumbers,
    fieldOr_members_mapNumbers, hmetadata]
  cases fieldOr optionalText none executor with
  | error e => rfl
  | ok executor =>
    cases fieldOr optionalText none group with
    | error e => rfl
    | ok group =>
      cases fieldOr members [] options with
      | error e => rfl
      | ok options =>
        cases fieldOr members [] configurations with
        | error e => rfl
        | ok configurations =>
          cases fieldOr metadataLabel none metadata with
          | error e => rfl
          | ok label => rfl

theorem ofJson_mapNumbers (v : Json) :
    ofJson (v.mapNumbers f) = (ofJson v).map (mapNumbers f) := by
  cases v with
  | object ms =>
    have hget := fun key => Members.get?_mapNumbers (f := f) key ms
    unfold Members.mapNumbers at hget
    rw [mapNumbers_object, ofJson]
    simp only [hget]
    exact ofFields_mapNumbers _ _ _ _ _
  | array vs =>
    rw [mapNumbers_array]
    rcases vs with _ | ⟨executor, _ | ⟨group, vs⟩⟩
    · rfl
    · rfl
    · rw [List.map_cons, List.map_cons, ofJson, ofJson, List.length_map]
      split
      · simp only [List.getElem?_map]
        exact ofFields_mapNumbers (some executor) (some group) vs[0]? vs[1]? vs[2]?
      · rfl
  | _ => simp [ofJson, Except.map]

end WrittenTarget

theorem listed_mapNumbers (v : Json) : listed (v.mapNumbers f) = listed v := by
  cases v with
  | array vs =>
    rw [mapNumbers_array, listed, listed, List.filterMap_map]
    simp [Function.comp_def]
  | _ => simp [listed]

theorem declaredLabel?_mapNumbers (labels : Members) (name : String) :
    declaredLabel? (labels.mapNumbers f) name = declaredLabel? labels name := by
  unfold declaredLabel? Members.mapNumbers
  rw [List.find?_map]
  simp [Function.comp_def, listed_mapNumbers, Option.bind_map]

theorem targetOf_mapNumbers (labels : Members) (name : String) (w : WrittenTarget) :
    targetOf (labels.mapNumbers f) name (w.mapNumbers f) =
      (targetOf labels name w).mapNumbers f := by
  unfold targetOf
  rw [declaredLabel?_mapNumbers]
  rfl

/-- Where each body still makes a target when it is changed, so do all. -/
theorem targetsOf_map {labels labels' : Members} {c : String → Json → Json}
    {g : Target → Target} {ms : Members} {ts : List Target}
    (h : ∀ m ∈ ms, ∀ w, WrittenTarget.ofJson m.2 = .ok w →
      ∃ w', WrittenTarget.ofJson (c m.1 m.2) = .ok w' ∧
        targetOf labels' m.1 w' = g (targetOf labels m.1 w))
    (hts : targetsOf labels ms = .ok ts) :
    targetsOf labels' (ms.map fun m => (m.1, c m.1 m.2)) = .ok (ts.map g) := by
  induction ms generalizing ts with
  | nil =>
    obtain rfl := Except.ok.inj hts
    rfl
  | cons m ms ih =>
    obtain ⟨name, body⟩ := m
    obtain ⟨w, hw, hts⟩ := bind_eq_ok.mp hts
    obtain ⟨rest, hrest, hts⟩ := bind_eq_ok.mp hts
    obtain rfl := Except.ok.inj hts
    obtain ⟨w', hw', htarget⟩ := h (name, body) List.mem_cons_self w hw
    rw [List.map_cons, targetsOf]
    refine bind_eq_ok.mpr ⟨w', hw', ?_⟩
    refine bind_eq_ok.mpr ⟨rest.map g, ih (fun m hm => h m (List.mem_cons_of_mem _ hm)) hrest, ?_⟩
    simp only at htarget
    rw [htarget, List.map_cons]

end Project

end Workyard
