import Workyard.Json.Basic

/-!
# Members of objects

Laws of looking up, setting and changing the members of an object, and of setting many.
-/

namespace Workyard.Json.Members

set_option autoImplicit false

variable {k k' : String} {v : Json} {ms : Members}

@[simp] theorem keys_nil : keys [] = [] := rfl

@[simp] theorem keys_cons (m : String × Json) (ms : Members) : keys (m :: ms) = m.1 :: keys ms :=
  rfl

theorem get?_eq_none_iff : get? k ms = none ↔ k ∉ keys ms := by
  induction ms with
  | nil => simp [get?]
  | cons m ms ih =>
    obtain ⟨k₁, v₁⟩ := m
    by_cases h : k₁ = k
    · simp [get?, h]
    · have h' : k ≠ k₁ := fun heq => h heq.symm
      simp [get?, h, h', ih]

theorem mem_of_get? (h : get? k ms = some v) : (k, v) ∈ ms := by
  induction ms with
  | nil => simp [get?] at h
  | cons m ms ih =>
    obtain ⟨k₁, v₁⟩ := m
    by_cases hk : k₁ = k
    · subst hk
      simp only [get?, if_true, Option.some.injEq] at h
      simp [h]
    · simp only [get?, hk, if_false] at h
      exact List.mem_cons_of_mem _ (ih h)

theorem get?_of_mem (hnodup : (keys ms).Nodup) (h : (k, v) ∈ ms) : get? k ms = some v := by
  induction ms with
  | nil => simp at h
  | cons m ms ih =>
    obtain ⟨k₁, v₁⟩ := m
    obtain ⟨hnew, hnodup⟩ := List.nodup_cons.mp hnodup
    rcases List.mem_cons.mp h with heq | hmem
    · rw [Prod.mk.injEq] at heq
      simp [get?, heq.1, heq.2]
    · have hk : k₁ ≠ k := by
        rintro rfl
        exact hnew (List.mem_map.mpr ⟨_, hmem, rfl⟩)
      simp [get?, hk, ih hnodup hmem]

/-! ### Setting -/

theorem mem_set {m : String × Json} (h : m ∈ set k v ms) : m = (k, v) ∨ m ∈ ms := by
  induction ms with
  | nil => simpa [set] using h
  | cons m₁ ms ih =>
    obtain ⟨k₁, v₁⟩ := m₁
    by_cases hk : k₁ = k
    · simp only [set, hk, if_true, List.mem_cons] at h ⊢
      rcases h with h | h
      · exact .inl h
      · exact .inr (.inr h)
    · simp only [set, hk, if_false, List.mem_cons] at h ⊢
      rcases h with h | h
      · exact .inr (.inl h)
      · rcases ih h with h | h
        · exact .inl h
        · exact .inr (.inr h)

theorem set_of_not_mem (h : k ∉ keys ms) : set k v ms = ms ++ [(k, v)] := by
  induction ms with
  | nil => rfl
  | cons m ms ih =>
    obtain ⟨k₁, v₁⟩ := m
    rw [keys_cons, List.mem_cons, not_or] at h
    have hk : k₁ ≠ k := fun heq => h.1 heq.symm
    simp [set, hk, ih h.2]

theorem nodup_keys_set (h : (keys ms).Nodup) : (keys (set k v ms)).Nodup := by
  rw [keys_set]
  split
  · exact h
  · rename_i hk
    refine List.nodup_append.mpr ⟨h, by simp, ?_⟩
    intro a ha b hb
    rw [List.mem_singleton] at hb
    rintro rfl
    exact hk (hb ▸ ha)

theorem set_set (w : Json) (ms : Members) : set k w (set k v ms) = set k w ms := by
  induction ms with
  | nil => simp [set]
  | cons m ms ih =>
    obtain ⟨k₁, v₁⟩ := m
    by_cases hk : k₁ = k
    · simp [set, hk]
    · simp [set, hk, ih]

/-- The members after those of an object were set one by one. -/
def setAll (ms : Members) (es : List (String × Json)) : Members :=
  es.foldl (fun ms e => ms.set e.1 e.2) ms

theorem nodup_keys_setAll {es : List (String × Json)} (h : (keys ms).Nodup) :
    (keys (ms.setAll es)).Nodup := by
  induction es generalizing ms with
  | nil => exact h
  | cons e es ih => exact ih (nodup_keys_set h)

theorem nodup_keys_ofList (es : List (String × Json)) : (keys (ofList es)).Nodup :=
  nodup_keys_setAll List.nodup_nil

theorem mem_setAll {es : List (String × Json)} {m : String × Json} (h : m ∈ ms.setAll es) :
    m ∈ ms ∨ m ∈ es := by
  induction es generalizing ms with
  | nil => exact .inl h
  | cons e es ih =>
    rcases ih h with h | h
    · rcases mem_set h with rfl | h
      · exact .inr List.mem_cons_self
      · exact .inl h
    · exact .inr (List.mem_cons_of_mem _ h)

theorem mem_ofList {es : List (String × Json)} {m : String × Json} (h : m ∈ ofList es) :
    m ∈ es := by
  rcases mem_setAll h with h | h
  · exact absurd h (by simp)
  · exact h

theorem setAll_of_nodup {es : List (String × Json)} (h : (keys (ms ++ es)).Nodup) :
    ms.setAll es = ms ++ es := by
  induction es generalizing ms with
  | nil => simp [setAll]
  | cons e es ih =>
    have hkeys : keys (ms ++ e :: es) = keys ms ++ e.1 :: keys es := by simp [keys]
    have hnew : e.1 ∉ keys ms := by
      rw [hkeys, List.nodup_append] at h
      exact fun hmem => h.2.2 _ hmem _ List.mem_cons_self rfl
    show setAll (set e.1 e.2 ms) es = _
    rw [set_of_not_mem hnew, ih (by simpa using h)]
    simp

theorem ofList_of_nodup (h : (keys ms).Nodup) : ofList ms = ms :=
  @setAll_of_nodup [] ms (by simpa using h)

/-! ### Members that were given in turn -/

/-- Members of which each key stands where it came first, with the value that came last. -/
structure Merged (es : List (String × Json)) (ms : Members) : Prop where
  keys_eq : keys ms = (es.map (·.1)).eraseDups
  last : ∀ k, get? k ms = (es.reverse.find? (·.1 = k)).map (·.2)

section Merged

variable {es : List (String × Json)} {ms ms' : Members} {k : String} {v : Json}

theorem eraseDups_concat (ks : List String) (k : String) :
    (ks ++ [k]).eraseDups = if k ∈ ks then ks.eraseDups else ks.eraseDups ++ [k] := by
  have hone : [k].eraseDups = [k] := by simp [List.eraseDups_cons]
  rw [List.eraseDups_append]
  by_cases hk : k ∈ ks
  · simp [hk, List.removeAll]
  · simp [hk, List.removeAll, hone]

theorem Merged.concat (h : Merged es ms) : Merged (es ++ [(k, v)]) (set k v ms) where
  keys_eq := by
    rw [keys_set, List.map_append, List.map_cons, List.map_nil, eraseDups_concat, h.keys_eq]
    by_cases hk : k ∈ es.map (·.1)
    · rw [if_pos (List.mem_eraseDups.mpr hk), if_pos hk]
    · rw [if_neg (fun h => hk (List.mem_eraseDups.mp h)), if_neg hk]
  last k' := by
    rw [get?_set, h.last]
    by_cases hk : k = k' <;> simp [hk]

theorem Merged.setAll {es' : List (String × Json)} (h : Merged es ms) :
    Merged (es ++ es') (ms.setAll es') := by
  induction es' generalizing es ms with
  | nil => simpa [Members.setAll] using h
  | cons e es' ih => simpa [Members.setAll] using ih (h.concat (k := e.1) (v := e.2))

theorem merged_ofList (es : List (String × Json)) : Merged es (ofList es) := by
  have hnil : Merged [] [] := ⟨rfl, fun _ => rfl⟩
  exact hnil.setAll

/-- Members are known by their keys and what is found under them. -/
theorem eq_of_get? (hkeys : keys ms = keys ms') (hnodup : (keys ms).Nodup)
    (h : ∀ k, get? k ms = get? k ms') : ms = ms' := by
  induction ms generalizing ms' with
  | nil =>
    cases ms' with
    | nil => rfl
    | cons m' ms' => cases hkeys
  | cons m ms ih =>
    cases ms' with
    | nil => cases hkeys
    | cons m' ms' =>
      obtain ⟨k, v⟩ := m
      obtain ⟨k', v'⟩ := m'
      obtain ⟨rfl, hkeys'⟩ : k = k' ∧ keys ms = keys ms' := by simpa using hkeys
      obtain ⟨hnew, hnodup⟩ := List.nodup_cons.mp hnodup
      obtain rfl : v = v' := by simpa [get?] using h k
      refine congrArg _ (ih hkeys' hnodup fun k₁ => ?_)
      by_cases hk : k = k₁
      · subst hk
        rw [get?_eq_none_iff.mpr hnew, get?_eq_none_iff.mpr (hkeys' ▸ hnew)]
      · simpa [get?, hk] using h k₁

theorem merged_iff : Merged es ms ↔ ms = ofList es := by
  refine ⟨fun h => ?_, fun h => h ▸ merged_ofList es⟩
  have hof := merged_ofList es
  refine (eq_of_get? (hof.keys_eq.trans h.keys_eq.symm) (nodup_keys_ofList es) fun k => ?_).symm
  rw [hof.last, h.last]

end Merged

/-! ### Changing -/

theorem get?_modify (f : Json → Json) :
    get? k' (modify k f ms) = if k = k' then (get? k ms).map f else get? k' ms := by
  induction ms with
  | nil => simp [modify, get?]
  | cons m ms ih =>
    obtain ⟨k₁, v₁⟩ := m
    by_cases hk : k₁ = k
    · subst hk
      by_cases hk' : k₁ = k'
      · simp [modify, get?, hk']
      · simp [modify, get?, hk']
    · by_cases hk' : k₁ = k'
      · subst hk'
        simp [modify, get?, hk, Ne.symm hk]
      · simp [modify, get?, hk, hk', ih]

theorem modify_of_not_mem (f : Json → Json) (h : k ∉ keys ms) : modify k f ms = ms := by
  induction ms with
  | nil => rfl
  | cons m ms ih =>
    obtain ⟨k₁, v₁⟩ := m
    rw [keys_cons, List.mem_cons, not_or] at h
    have hk : k₁ ≠ k := fun heq => h.1 heq.symm
    simp [modify, hk, ih h.2]

theorem modify_eq_set {f : Json → Json} (h : get? k ms = some v) :
    modify k f ms = set k (f v) ms := by
  induction ms with
  | nil => simp [get?] at h
  | cons m ms ih =>
    obtain ⟨k₁, v₁⟩ := m
    by_cases hk : k₁ = k
    · simp only [get?, hk, if_true, Option.some.injEq] at h
      simp [modify, set, hk, h]
    · simp only [get?, hk, if_false] at h
      simp [modify, set, hk, ih h]

theorem set_eq_self (h : get? k ms = some v) : set k v ms = ms := by
  induction ms with
  | nil => simp [get?] at h
  | cons m ms ih =>
    obtain ⟨k₁, v₁⟩ := m
    by_cases hk : k₁ = k
    · simp only [get?, hk, if_true, Option.some.injEq] at h
      simp [set, hk, h]
    · simp only [get?, hk, if_false] at h
      simp [set, hk, ih h]

theorem modify_eq_self {f : Json → Json} (h : ∀ v, get? k ms = some v → f v = v) :
    modify k f ms = ms := by
  cases hv : get? k ms with
  | none => exact modify_of_not_mem f (get?_eq_none_iff.mp hv)
  | some v => rw [modify_eq_set hv, h v hv, set_eq_self hv]

theorem modify_eq_map (f : Json → Json) (h : (keys ms).Nodup) :
    modify k f ms = ms.map fun m => (m.1, if m.1 = k then f m.2 else m.2) := by
  induction ms with
  | nil => rfl
  | cons m ms ih =>
    obtain ⟨k₁, v₁⟩ := m
    obtain ⟨hnew, h⟩ := List.nodup_cons.mp h
    by_cases hk : k₁ = k
    · subst hk
      have hrest := modify_of_not_mem f hnew
      rw [ih h] at hrest
      simp [modify, hrest]
    · simp [modify, hk, ih h]

theorem modify_modify (f g : Json → Json) :
    modify k f (modify k g ms) = modify k (fun v => f (g v)) ms := by
  induction ms with
  | nil => rfl
  | cons m ms ih =>
    obtain ⟨k₁, v₁⟩ := m
    by_cases hk : k₁ = k
    · simp [modify, hk]
    · simp [modify, hk, ih]

theorem modify_comm (f g : Json → Json) (h : k ≠ k') :
    modify k f (modify k' g ms) = modify k' g (modify k f ms) := by
  induction ms with
  | nil => rfl
  | cons m ms ih =>
    obtain ⟨k₁, v₁⟩ := m
    by_cases hk : k₁ = k
    · subst hk
      simp [modify, h]
    · by_cases hk' : k₁ = k'
      · subst hk'
        simp [modify, hk]
      · simp [modify, hk, hk', ih]

theorem mem_modify {f : Json → Json} {m : String × Json} (h : m ∈ modify k f ms) :
    m ∈ ms ∨ m.1 = k ∧ ∃ v, (k, v) ∈ ms ∧ m.2 = f v := by
  induction ms with
  | nil => exact .inl h
  | cons m₁ ms ih =>
    obtain ⟨k₁, v₁⟩ := m₁
    by_cases hk : k₁ = k
    · subst hk
      simp only [modify, if_true, List.mem_cons] at h
      rcases h with rfl | h
      · exact .inr ⟨rfl, v₁, List.mem_cons_self, rfl⟩
      · exact .inl (List.mem_cons_of_mem _ h)
    · simp only [modify, hk, if_false, List.mem_cons] at h
      rcases h with rfl | h
      · exact .inl List.mem_cons_self
      · rcases ih h with h | ⟨hm, v, hv, hf⟩
        · exact .inl (List.mem_cons_of_mem _ h)
        · exact .inr ⟨hm, v, List.mem_cons_of_mem _ hv, hf⟩

end Workyard.Json.Members
