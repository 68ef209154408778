import Workyard.Proofs.Json.Records

/-!
# Changing a field of a record

A field of a record is the member of its name, or the item in its place where the record is written
as an array. A field that is changed does not matter to the others.
-/

namespace Workyard.Json

set_option autoImplicit false

variable {σ : Type}
variable {name name' : String} {place place' : Nat} {f : Json → Json} {p : Json → Bool}

/-- The field of a record with that name, which has that place in an array. -/
def field? (name : String) (place : Nat) : Json → Option Json
  | .object ms => Members.get? name ms
  | .array vs => vs[place]?
  | _ => none

/-- The record with that field changed. -/
def mapField (name : String) (place : Nat) (f : Json → Json) : Json → Json
  | .object ms => .object (ms.map fun m => (m.1, if m.1 = name then f m.2 else m.2))
  | .array vs => .array (vs.modify place f)
  | v => v

/-- The record without that field if it has such a value. The member goes; in an array, in which
other fields follow, `null` takes its place. -/
def dropField (name : String) (place : Nat) (p : Json → Bool) : Json → Json
  | .object ms => .object (if (Members.get? name ms).any p then ms.filter (·.1 ≠ name) else ms)
  | .array vs => .array (vs.modify place fun v => if p v then .null else v)
  | v => v

/-- An object, or an array with so many items. -/
def IsRecord (least most : Nat) : Json → Prop
  | .object _ => True
  | .array vs => least ≤ vs.length ∧ vs.length ≤ most
  | _ => False

/-! ### Fields of a changed record -/

theorem Members.get?_map (f : String → Json → Json) (key : String) (ms : Members) :
    get? key (ms.map fun m => (m.1, f m.1 m.2)) = (get? key ms).map (f key) := by
  induction ms with
  | nil => rfl
  | cons m ms ih =>
    obtain ⟨k, v⟩ := m
    by_cases hk : k = key
    · simp [get?, hk]
    · simp [get?, hk, ih]

theorem Members.get?_filter_ne (key name : String) (ms : Members) :
    get? key (ms.filter (·.1 ≠ name)) = if key = name then none else get? key ms := by
  induction ms with
  | nil => simp [get?]
  | cons m ms ih =>
    obtain ⟨k, v⟩ := m
    by_cases hname : k = name
    · subst hname
      rw [List.filter_cons_of_neg (by simp), ih, get?]
      by_cases hkey : k = key
      · simp [hkey]
      · simp [hkey]
    · rw [List.filter_cons_of_pos (by simpa using hname), get?, get?, ih]
      by_cases hkey : k = key
      · subst hkey
        simp [hname]
      · simp [hkey]

@[simp] theorem isRecord_mapField {least most : Nat} {v : Json} :
    IsRecord least most (v.mapField name place f) ↔ IsRecord least most v := by
  cases v <;> simp [mapField, IsRecord]

@[simp] theorem isRecord_dropField {least most : Nat} {v : Json} :
    IsRecord least most (v.dropField name place p) ↔ IsRecord least most v := by
  cases v <;> simp [dropField, IsRecord]

theorem field?_mapField (v : Json) :
    (v.mapField name place f).field? name place = (v.field? name place).map f := by
  cases v with
  | object ms =>
    rw [mapField, field?, field?,
      Members.get?_map (fun key value => if key = name then f value else value)]
    simp
  | array vs => simp [mapField, field?]
  | _ => rfl

theorem field?_mapField_of_ne (hname : name' ≠ name) (hplace : place' ≠ place) (v : Json) :
    (v.mapField name place f).field? name' place' = v.field? name' place' := by
  cases v with
  | object ms =>
    rw [mapField, field?, field?,
      Members.get?_map (fun key value => if key = name then f value else value)]
    simp [hname]
  | array vs => simp [mapField, field?, List.getElem?_modify_ne _ _ (Ne.symm hplace)]
  | _ => rfl

theorem field?_dropField_of_ne (hname : name' ≠ name) (hplace : place' ≠ place) (v : Json) :
    (v.dropField name place p).field? name' place' = v.field? name' place' := by
  cases v with
  | object ms =>
    rw [dropField, field?, field?]
    split
    · rw [Members.get?_filter_ne, if_neg hname]
    · rfl
  | array vs => simp [dropField, field?, List.getElem?_modify_ne _ _ (Ne.symm hplace)]
  | _ => rfl

/-- A field that is dropped is gone, or `null`; one that is not is as before. -/
theorem field?_dropField (v : Json) :
    ((v.field? name place).any p = true ∧
      ((v.dropField name place p).field? name place = none ∨
        (v.dropField name place p).field? name place = some .null)) ∨
    ((v.field? name place).any p = false ∧
      (v.dropField name place p).field? name place = v.field? name place) := by
  cases v with
  | object ms =>
    rw [dropField, field?, field?]
    split
    · rename_i hany
      exact .inl ⟨hany, .inl (by rw [Members.get?_filter_ne, if_pos rfl])⟩
    · rename_i hany
      exact .inr ⟨by simpa using hany, rfl⟩
  | array vs =>
    rw [dropField, field?, field?, List.getElem?_modify_eq]
    cases vs[place]? with
    | none => exact .inr ⟨rfl, rfl⟩
    | some v =>
      by_cases hv : p v = true
      · exact .inl ⟨hv, .inr (by simp [hv])⟩
      · exact .inr ⟨by simpa using hv, by simp [hv]⟩
  | _ => exact .inr ⟨rfl, rfl⟩

theorem mem_modify {vs : List Json} {v : Json} (h : v ∈ vs.modify place f) :
    v ∈ vs ∨ ∃ u ∈ vs, v = f u := by
  obtain ⟨j, hj⟩ := List.mem_iff_getElem?.mp h
  rw [List.getElem?_modify] at hj
  obtain ⟨u, hu, heq⟩ := Option.map_eq_some_iff.mp hj
  have hmem := List.mem_of_getElem? hu
  split at heq
  · exact .inr ⟨u, hmem, heq.symm⟩
  · exact .inl (heq ▸ hmem)

theorem fits_mapField {depth : Nat} {v : Json} (hf : ∀ {n v}, Fits n v → Fits n (f v))
    (h : Fits depth v) : Fits depth (v.mapField name place f) := by
  cases h with
  | array h =>
    refine .array fun u hu => ?_
    rcases mem_modify hu with hu | ⟨u, hmem, rfl⟩
    · exact h u hu
    · exact hf (h u hmem)
  | @object _ ms hkeys h =>
    have hsame : Members.keys (ms.map fun m => (m.1, if m.1 = name then f m.2 else m.2)) =
        Members.keys ms := by
      simp [Members.keys]
    refine .object (hsame ▸ hkeys) fun m hm => ?_
    obtain ⟨m, hmem, rfl⟩ := List.mem_map.mp hm
    simp only
    split
    · exact hf (h m hmem)
    · exact h m hmem
  | _ => constructor

theorem fits_filter {depth : Nat} {ms : Members} (q : String × Json → Bool)
    (h : Fits depth (.object ms)) : Fits depth (.object (ms.filter q)) := by
  cases h with
  | object hkeys h =>
    refine .object (hkeys.sublist (List.filter_sublist.map _)) fun m hm => ?_
    exact h m (List.mem_filter.mp hm).1

theorem fits_dropField {depth : Nat} {v : Json} (h : Fits depth v) :
    Fits depth (v.dropField name place p) := by
  cases h with
  | array h =>
    refine .array fun u hu => ?_
    rcases mem_modify hu with hu | ⟨u, hmem, rfl⟩
    · exact h u hu
    · split
      · exact .null
      · exact h u hmem
  | object hkeys h =>
    rw [dropField]
    split
    · exact fits_filter _ (.object hkeys h)
    · exact .object hkeys h
  | _ => constructor

/-! ### What a changed record gives -/

theorem takeInOrder_modify {slots : List (Slot σ)} {g : σ → σ}
    (h : ∀ (j : Nat) (s : Slot σ), slots[j]? = some s → ∀ r v,
      s.take (g r) (if j = place then f v else v) = (s.take r v).map g)
    (r : σ) (vs : List Json) :
    takeInOrder slots (g r) (vs.modify place f) = (takeInOrder slots r vs).map g := by
  induction vs generalizing slots place r with
  | nil =>
    rw [List.modify_nil, takeInOrder, takeInOrder]
    split <;> rfl
  | cons v vs ih =>
    cases slots with
    | nil => cases place <;> rfl
    | cons s ss =>
      have hfirst := h 0 s rfl r v
      cases place with
      | zero =>
        rw [List.modify_zero_cons, takeInOrder, takeInOrder]
        rw [if_pos rfl] at hfirst
        rw [hfirst]
        cases s.take r v with
        | none => rfl
        | some r' =>
          have hsame : ∀ s ∈ ss, ∀ r v, s.take (g r) (id v) = (s.take r v).map g := by
            intro s' hs' r v
            obtain ⟨j, hj⟩ := List.mem_iff_getElem?.mp hs'
            simpa using h (j + 1) s' hj r v
          have hrest := takeInOrder_map hsame r' vs
          rwa [List.map_id] at hrest
      | succ place =>
        rw [List.modify_succ_cons, takeInOrder, takeInOrder]
        rw [if_neg (Nat.succ_ne_zero place).symm] at hfirst
        rw [hfirst]
        cases s.take r v with
        | none => rfl
        | some r' =>
          refine ih (fun j s' hs' r v => ?_) r'
          simpa using h (j + 1) s' hs' r v

/-- Where the fields of a record take from a changed field what they took before, changed, so does
the record. -/
theorem takeRecord_mapField {slots : List (Slot σ)} {g : σ → σ}
    (hplace : ∀ j : Fin slots.length, (slots.get j).field.name = name ↔ j.val = place)
    (h : ∀ s ∈ slots, ∀ r v,
      s.take (g r) (if s.field.name = name then f v else v) = (s.take r v).map g)
    (r : σ) (v : Json) :
    takeRecord slots (g r) (v.mapField name place f) = (takeRecord slots r v).map g := by
  cases v with
  | object ms => exact takeByName_map (f := fun key v => if key = name then f v else v) h r ms
  | array vs =>
    refine takeInOrder_modify (fun j s hs r v => ?_) r vs
    obtain ⟨hj, rfl⟩ := List.getElem?_eq_some_iff.mp hs
    have hname := hplace ⟨j, hj⟩
    simp only [List.get_eq_getElem] at hname
    rw [← h _ (List.getElem_mem hj)]
    simp only [hname]
  | _ => rfl

end Workyard.Json
