import Workyard.Proofs.Json.Numbers
import Workyard.Proofs.Json.Spelling

/-!
# What records take from values

A record is read from the text itself. Where the text spells a value, though, the value settles what
the record takes. A key that comes twice is refused by a record that knows it and not by the value,
so that reading is sure to succeed only where objects give their keys once.
-/

namespace Workyard.Json

set_option autoImplicit false

open Reader

variable {α β σ : Type}

/-- What a reader takes from a text that spells a value is what is taken from the value. -/
structure Takes (read : Nat → Reader α) (take : Json → Option α) : Prop where
  sound : ∀ {unique : Prop} {depth : Nat} {v : Json} {cs rest rest' : List Char} {a : α},
    Spells unique depth (.value v) cs rest → read depth cs = .ok (a, rest') →
      take v = some a ∧ rest' = rest
  complete : ∀ {depth : Nat} {v : Json} {cs rest : List Char} {a : α},
    Spells True depth (.value v) cs rest → take v = some a → read depth cs = .ok (a, rest)

theorem Takes.map {read : Nat → Reader α} {take : Json → Option α} (h : Takes read take)
    (f : α → β) :
    Takes (fun depth cs => read depth cs >>= fun r => .ok (f r.1, r.2)) fun v => (take v).map f where
  sound := by
    intro unique depth v cs rest rest' b hspells hread
    obtain ⟨⟨a, after⟩, hfirst, hb⟩ := bind_eq_ok.mp hread
    obtain ⟨rfl, rfl⟩ := Prod.mk.inj (Except.ok.inj hb)
    obtain ⟨htake, rfl⟩ := h.sound hspells hfirst
    exact ⟨by rw [htake]; rfl, rfl⟩
  complete := by
    intro depth v cs rest b hspells htake
    obtain ⟨a, ha, rfl⟩ := Option.map_eq_some_iff.mp htake
    exact bind_eq_ok.mpr ⟨(a, rest), h.complete hspells ha, rfl⟩

/-- A text with nothing after its value. -/
theorem Takes.finish_sound {read : Nat → Reader α} {take : Json → Option α} (h : Takes read take)
    {text : String} {v : Json} {a : α} (hparse : parse text = .ok v)
    (hread : finish (read maxDepth) text.toList = .ok a) : take v = some a := by
  obtain ⟨rest, hspells, -⟩ := parse_eq_ok_iff.mp hparse
  obtain ⟨⟨b, after⟩, hfirst, hb⟩ := bind_eq_ok.mp hread
  simp only at hb
  split at hb
  · obtain rfl := Except.ok.inj hb
    exact (h.sound hspells hfirst).1
  · exact absurd hb (by simp)

theorem Takes.finish_complete {read : Nat → Reader α} {take : Json → Option α} (h : Takes read take)
    {cs rest : List Char} {v : Json} {a : α} (hspells : Spells True maxDepth (.value v) cs rest)
    (hrest : skipSpace rest = []) (htake : take v = some a) :
    finish (read maxDepth) cs = .ok a := by
  refine bind_eq_ok.mpr ⟨(a, rest), h.complete hspells htake, ?_⟩
  simp [hrest]

/-! ### Texts and objects -/

/-- A text, or none for `null`. -/
def optionalText? : Json → Option (Option String)
  | .null => some none
  | .string s => some (some s)
  | _ => none

section

variable {unique : Prop} {depth : Nat} {v : Json} {c : Char} {cs tail rest : List Char}

theorem scalar_of_spells (h : Spells unique depth (.value v) cs rest)
    (hs : skipSpace cs = c :: tail) (harray : c ≠ '[') (hobject : c ≠ '\x7b') :
    Scalar c tail rest v := by
  cases h with
  | scalar h =>
    obtain ⟨c', tail', hs', hscalar⟩ := scalar_of_value h
    obtain ⟨rfl, rfl⟩ := List.cons.inj (hs.symm.trans hs')
    exact hscalar
  | array hopen => exact absurd (List.cons.inj (hs.symm.trans hopen)).1 harray
  | object hopen => exact absurd (List.cons.inj (hs.symm.trans hopen)).1 hobject

theorem exists_scalar_of_spells (h : Spells unique depth (.value v) cs rest)
    (harray : v.array? = none) (hobject : v.object? = none) :
    ∃ c tail, skipSpace cs = c :: tail ∧ Scalar c tail rest v := by
  cases h with
  | scalar h => exact scalar_of_value h
  | array => exact absurd harray (by simp [array?])
  | object => exact absurd hobject (by simp [object?])

end

theorem null_of_scalar {v : Json} {tail rest : List Char} (h : Scalar 'n' tail rest v) :
    v = .null ∧ wordTail ['u', 'l', 'l'] tail = .ok rest := by
  cases h with
  | null _ h => exact ⟨rfl, h⟩
  | true hc => exact absurd hc (by decide)
  | false hc => exact absurd hc (by decide)
  | negative hc => exact absurd hc (by decide)
  | number hc => exact absurd hc (by decide)
  | string hc => exact absurd hc (by decide)

theorem string_of_scalar {v : Json} {tail rest : List Char} (h : Scalar '\x22' tail rest v) :
    ∃ s, v = .string s ∧ Reader.string tail = .ok (s, rest) := by
  cases h with
  | string _ h => exact ⟨_, rfl, h⟩
  | null hc => exact absurd hc (by decide)
  | true hc => exact absurd hc (by decide)
  | false hc => exact absurd hc (by decide)
  | negative hc => exact absurd hc (by decide)
  | number hc => exact absurd hc (by decide)

theorem takes_text : Takes (fun _ => text) string? where
  sound := by
    intro unique depth v cs rest rest' s hspells h
    unfold text at h
    split at h
    · rename_i tail hs
      have hscalar := scalar_of_spells hspells hs (by decide) (by decide)
      obtain ⟨s', rfl, hstring⟩ := string_of_scalar hscalar
      obtain ⟨rfl, rfl⟩ := Prod.mk.inj (Except.ok.inj (hstring.symm.trans h))
      exact ⟨rfl, rfl⟩
    · exact absurd h (by simp)
  complete := by
    intro depth v cs rest s hspells h
    cases v with
    | string s' =>
      obtain rfl : s' = s := by simpa [string?] using h
      obtain ⟨c, tail, hs, hscalar⟩ := exists_scalar_of_spells hspells rfl rfl
      cases hscalar with
      | string hc hstring =>
        subst hc
        unfold text
        rw [hs]
        exact hstring
    | _ => exact absurd h (by simp [string?])

theorem text_skipSpace (cs : List Char) : text (skipSpace cs) = text cs := by
  have hidem : skipSpace (skipSpace cs) = skipSpace cs := by
    cases hs : skipSpace cs with
    | nil => rfl
    | cons c tail =>
      have hhead := List.head?_dropWhile_not isSpace cs
      rw [show cs.dropWhile isSpace = c :: tail from hs] at hhead
      exact skipSpace_cons (by simpa using hhead) tail
  unfold text
  rw [hidem]

theorem takes_optionalText : Takes (fun _ => optionalText) optionalText? where
  sound := by
    intro unique depth v cs rest rest' s hspells h
    unfold optionalText at h
    split at h
    · rename_i tail hs
      have hscalar := scalar_of_spells hspells hs (by decide) (by decide)
      obtain ⟨rfl, hword⟩ := null_of_scalar hscalar
      obtain ⟨after, hword', h⟩ := bind_eq_ok.mp h
      obtain ⟨rfl, rfl⟩ := Prod.mk.inj (Except.ok.inj h)
      exact ⟨rfl, Except.ok.inj (hword'.symm.trans hword)⟩
    · rw [text_skipSpace] at h
      obtain ⟨htake, hrest⟩ := (takes_text.map some).sound hspells h
      cases v with
      | string s' => exact ⟨by simpa [string?, optionalText?] using htake, hrest⟩
      | _ => exact absurd htake (by simp [string?])
  complete := by
    intro depth v cs rest s hspells h
    cases v with
    | null =>
      obtain rfl : none = s := by simpa [optionalText?] using h
      obtain ⟨c, tail, hs, hscalar⟩ := exists_scalar_of_spells hspells rfl rfl
      cases hscalar with
      | null hc hword =>
        subst hc
        unfold optionalText
        rw [hs]
        exact bind_eq_ok.mpr ⟨rest, hword, rfl⟩
    | string s' =>
      obtain rfl : some s' = s := by simpa [optionalText?] using h
      have htext := (takes_text.map some).complete hspells rfl
      obtain ⟨c, tail, hs, hscalar⟩ := exists_scalar_of_spells hspells rfl rfl
      unfold optionalText
      split
      · rename_i hs'
        cases hscalar with
        | string hc =>
          rw [hs, hc] at hs'
          exact absurd (List.cons.inj hs').1 (by decide)
      · rw [text_skipSpace]
        exact htext
    | _ => exact absurd h (by simp [optionalText?])

theorem takes_objectMembers : Takes objectMembers object? where
  sound := by
    intro unique depth v cs rest rest' ms hspells h
    unfold objectMembers at h
    split at h
    · rename_i inner hs
      cases hspells with
      | scalar hscalar => exact absurd (by rw [hs]; rfl) (head_ne_of_scalar hscalar).2
      | array hopen => exact absurd (List.cons.inj (hs.symm.trans hopen)).1 (by decide)
      | object hopen hunique hmembers =>
        obtain ⟨-, rfl⟩ := List.cons.inj (hs.symm.trans hopen)
        simp only at h
        rw [hmembers.members_eq (by omega)] at h
        obtain ⟨rfl, rfl⟩ := Prod.mk.inj (Except.ok.inj h)
        exact ⟨rfl, rfl⟩
    · exact absurd h (by simp)
  complete := by
    intro depth v cs rest ms hspells h
    cases hspells with
    | scalar hscalar =>
      have hfits := fits_of_scalar hscalar 0
      cases hfits <;> exact absurd h (by simp [object?])
    | array => exact absurd h (by simp [object?])
    | object hopen hunique hmembers =>
      obtain rfl := Option.some.inj h
      unfold objectMembers
      rw [hopen]
      exact hmembers.members_eq (by omega)

/-! ### Fields -/

/-- A field with what it takes from a value. -/
structure Slot (σ : Type) where
  field : Reader.Field σ
  take : σ → Json → Option σ
  takes : ∀ r, Takes (fun depth => field.read depth r) (take r)

def slotNamed (slots : List (Slot σ)) (name : String) : Option (Slot σ) :=
  slots.find? (·.field.name = name)

def takeByName (slots : List (Slot σ)) : σ → Members → Option σ
  | r, [] => some r
  | r, (k, v) :: ms =>
    match slotNamed slots k with
    | none => takeByName slots r ms
    | some s => (s.take r v).bind fun r => takeByName slots r ms

def takeInOrder : List (Slot σ) → σ → List Json → Option σ
  | ss, r, [] => if ss.any (·.field.required) then none else some r
  | [], _, _ :: _ => none
  | s :: ss, r, v :: vs => (s.take r v).bind fun r => takeInOrder ss r vs

def takeRecord (slots : List (Slot σ)) (r : σ) : Json → Option σ
  | .array vs => takeInOrder slots r vs
  | .object ms => takeByName slots r ms
  | _ => none

/-- The keys that fields have come once, and not among those in `seen`. -/
def KnownOnce (slots : List (Slot σ)) : List String → List (String × Json) → Prop
  | _, [] => True
  | seen, (k, _) :: es =>
    match slotNamed slots k with
    | none => KnownOnce slots seen es
    | some _ => k ∉ seen ∧ KnownOnce slots (k :: seen) es

section

variable {slots : List (Slot σ)} {unique : Prop} {depth fuel : Nat} {first : Bool}
variable {seen : List String} {r a : σ} {cs rest rest' : List Char}
variable {vs : List Json} {es : List (String × Json)} {ms : Members}

theorem find?_field (slots : List (Slot σ)) (name : String) :
    (slots.map (·.field)).find? (·.name = name) = (slotNamed slots name).map (·.field) := by
  rw [List.find?_map]
  rfl

theorem closeArray_of_nextItem (h : nextItem first cs = .ok (false, rest)) :
    closeArray cs = .ok rest := by
  unfold nextItem at h
  unfold closeArray
  cases hs : skipSpace cs with
  | nil => simp [hs] at h
  | cons c tail =>
    by_cases hc : c = ']'
    · simpa [hs, hc] using h
    · simp only [hs, hc, if_false] at h
      split at h
      · split at h
        all_goals exact absurd h (by simp)
      · split at h
        all_goals exact absurd h (by simp)

theorem nextItem_of_closeArray (first : Bool) (h : closeArray cs = .ok rest) :
    nextItem first cs = .ok (false, rest) := by
  unfold closeArray at h
  unfold nextItem
  cases hs : skipSpace cs with
  | nil => simp [hs] at h
  | cons c tail =>
    by_cases hc : c = ']'
    · simpa [hs, hc] using h
    · simp [hs, hc] at h

theorem takeInOrder_sound (hspells : Spells unique depth (.items first vs) cs rest)
    (h : fieldsInOrder depth first (slots.map (·.field)) r cs = .ok (a, rest')) :
    takeInOrder slots r vs = some a ∧ rest' = rest := by
  induction slots generalizing first r cs vs with
  | nil =>
    obtain ⟨last, hclose, h⟩ := bind_eq_ok.mp h
    obtain ⟨rfl, rfl⟩ := Prod.mk.inj (Except.ok.inj h)
    have hend := nextItem_of_closeArray first hclose
    cases hspells with
    | noItem hend' =>
      obtain ⟨-, rfl⟩ := Prod.mk.inj (Except.ok.inj (hend.symm.trans hend'))
      exact ⟨rfl, rfl⟩
    | item hnext => simp [hend] at hnext
  | cons s ss ih =>
    rw [List.map_cons, fieldsInOrder] at h
    obtain ⟨⟨more, body⟩, hnext, h⟩ := bind_eq_ok.mp h
    cases hspells with
    | noItem hend =>
      obtain ⟨rfl, rfl⟩ := Prod.mk.inj (Except.ok.inj (hend.symm.trans hnext))
      simp only [Bool.false_eq_true, if_false, ← List.map_cons, List.any_map] at h
      split at h
      · exact absurd h (by simp)
      · rename_i hoptional
        obtain ⟨rfl, rfl⟩ := Prod.mk.inj (Except.ok.inj h)
        exact ⟨if_neg hoptional, rfl⟩
    | item hnext' hvalue hitems =>
      obtain ⟨rfl, rfl⟩ := Prod.mk.inj (Except.ok.inj (hnext'.symm.trans hnext))
      simp only [if_true] at h
      obtain ⟨⟨r', after⟩, hfield, h⟩ := bind_eq_ok.mp h
      obtain ⟨htake, rfl⟩ := (s.takes r).sound hvalue hfield
      obtain ⟨hrest, hafter⟩ := ih hitems h
      exact ⟨Option.bind_eq_some_iff.mpr ⟨r', htake, hrest⟩, hafter⟩

theorem takeInOrder_complete (hspells : Spells True depth (.items first vs) cs rest)
    (h : takeInOrder slots r vs = some a) :
    fieldsInOrder depth first (slots.map (·.field)) r cs = .ok (a, rest) := by
  induction slots generalizing first r cs vs with
  | nil =>
    cases hspells with
    | noItem hend =>
      obtain rfl := Option.some.inj h
      exact bind_eq_ok.mpr ⟨rest, closeArray_of_nextItem hend, rfl⟩
    | item => exact absurd h (by simp [takeInOrder])
  | cons s ss ih =>
    rw [List.map_cons, fieldsInOrder]
    cases hspells with
    | noItem hend =>
      refine bind_eq_ok.mpr ⟨_, hend, ?_⟩
      unfold takeInOrder at h
      split at h
      · exact absurd h (by simp)
      · rename_i hoptional
        obtain rfl := Option.some.inj h
        simp only [Bool.false_eq_true, if_false, ← List.map_cons, List.any_map]
        exact if_neg hoptional
    | item hnext hvalue hitems =>
      obtain ⟨r', htake, htail⟩ := Option.bind_eq_some_iff.mp h
      refine bind_eq_ok.mpr ⟨_, hnext, ?_⟩
      exact bind_eq_ok.mpr ⟨_, (s.takes r).complete hvalue htake, ih hitems htail⟩

theorem takeByName_sound (hspells : Spells unique depth (.members first es) cs rest)
    (h : fieldsByName (slots.map (·.field)) depth fuel first seen r cs = .ok (a, rest')) :
    takeByName slots r es = some a ∧ rest' = rest ∧ KnownOnce slots seen es := by
  induction es generalizing first seen r cs fuel with
  | nil =>
    cases fuel with
    | zero => exact absurd h (by simp [fieldsByName])
    | succ fuel =>
      obtain ⟨⟨more, key⟩, hnext, h⟩ := bind_eq_ok.mp h
      cases hspells with
      | noMember hend =>
        obtain ⟨rfl, rfl⟩ := Prod.mk.inj (Except.ok.inj (hend.symm.trans hnext))
        obtain ⟨rfl, rfl⟩ := Prod.mk.inj (Except.ok.inj h)
        exact ⟨rfl, rfl, trivial⟩
  | cons e es ih =>
    obtain ⟨k, v⟩ := e
    cases fuel with
    | zero => exact absurd h (by simp [fieldsByName])
    | succ fuel =>
      obtain ⟨⟨more, key⟩, hnext, h⟩ := bind_eq_ok.mp h
      cases hspells with
      | member hnext' hkey hcolon hvalue hmembers =>
        obtain ⟨rfl, rfl⟩ := Prod.mk.inj (Except.ok.inj (hnext'.symm.trans hnext))
        simp only [if_true] at h
        obtain ⟨⟨k', mark⟩, hkey', h⟩ := bind_eq_ok.mp h
        obtain ⟨rfl, rfl⟩ := Prod.mk.inj (Except.ok.inj (hkey.symm.trans hkey'))
        simp only [find?_field] at h
        unfold takeByName KnownOnce
        cases hslot : slotNamed slots k with
        | none =>
          simp only [hslot, Option.map_none] at h ⊢
          obtain ⟨body, hbody, h⟩ := bind_eq_ok.mp h
          obtain rfl := Except.ok.inj (hcolon.symm.trans hbody)
          obtain ⟨after, hskip, h⟩ := bind_eq_ok.mp h
          obtain rfl := Except.ok.inj ((hvalue.skipValue_eq (by omega)).symm.trans hskip)
          exact ih hmembers h
        | some s =>
          simp only [hslot, Option.map_some] at h ⊢
          split at h
          · exact absurd h (by simp)
          · rename_i hnew
            obtain ⟨body, hbody, h⟩ := bind_eq_ok.mp h
            obtain rfl := Except.ok.inj (hcolon.symm.trans hbody)
            obtain ⟨⟨r', after⟩, hfield, h⟩ := bind_eq_ok.mp h
            obtain ⟨htake, rfl⟩ := (s.takes r).sound hvalue hfield
            obtain ⟨hrest, hafter, honce⟩ := ih hmembers h
            exact ⟨Option.bind_eq_some_iff.mpr ⟨r', htake, hrest⟩, hafter, hnew, honce⟩

theorem takeByName_complete (hspells : Spells True depth (.members first es) cs rest)
    (hunique : (Members.keys es).Nodup) (hseen : ∀ k ∈ Members.keys es, k ∉ seen)
    (hfuel : cs.length < fuel) (h : takeByName slots r es = some a) :
    fieldsByName (slots.map (·.field)) depth fuel first seen r cs = .ok (a, rest) := by
  induction es generalizing first seen r cs fuel with
  | nil =>
    obtain ⟨fuel, rfl⟩ : ∃ k, fuel = k + 1 := ⟨fuel - 1, by omega⟩
    cases hspells with
    | noMember hend =>
      obtain rfl := Option.some.inj h
      exact bind_eq_ok.mpr ⟨_, hend, rfl⟩
  | cons e es ih =>
    obtain ⟨k, v⟩ := e
    obtain ⟨fuel, rfl⟩ : ∃ k, fuel = k + 1 := ⟨fuel - 1, by omega⟩
    obtain ⟨hk, hunique⟩ := List.nodup_cons.mp hunique
    cases hspells with
    | member hnext hkey hcolon hvalue hmembers =>
      have hnextLt := length_of_nextMember hnext
      have hkeyLt := length_of_string hkey
      have hcolonLt := length_of_colon hcolon
      have hvalueLt := hvalue.length_lt
      refine bind_eq_ok.mpr ⟨_, hnext, ?_⟩
      simp only [if_true]
      refine bind_eq_ok.mpr ⟨_, hkey, ?_⟩
      simp only [find?_field]
      unfold takeByName at h
      cases hslot : slotNamed slots k with
      | none =>
        simp only [hslot, Option.map_none] at h ⊢
        refine bind_eq_ok.mpr ⟨_, hcolon, bind_eq_ok.mpr ⟨_, hvalue.skipValue_eq (by omega), ?_⟩⟩
        exact ih hmembers hunique (fun k' hk' => hseen k' (List.mem_cons_of_mem _ hk')) (by omega) h
      | some s =>
        simp only [hslot, Option.map_some] at h ⊢
        obtain ⟨r', htake, htail⟩ := Option.bind_eq_some_iff.mp h
        rw [if_neg (hseen k List.mem_cons_self)]
        refine bind_eq_ok.mpr ⟨_, hcolon, ?_⟩
        refine bind_eq_ok.mpr ⟨_, (s.takes r).complete hvalue htake, ?_⟩
        refine ih hmembers hunique (fun k' hk' => ?_) (by simp only; omega) htail
        intro hmem
        rcases List.mem_cons.mp hmem with rfl | hmem
        · exact hk hk'
        · exact hseen k' (List.mem_cons_of_mem _ hk') hmem

/-! ### Records -/

theorem takeByName_append (ms ms' : Members) :
    takeByName slots r (ms ++ ms') =
      (takeByName slots r ms).bind fun r => takeByName slots r ms' := by
  induction ms generalizing r with
  | nil => rfl
  | cons m ms ih =>
    obtain ⟨k, v⟩ := m
    rw [List.cons_append, takeByName, takeByName]
    cases slotNamed slots k with
    | none => exact ih
    | some s => simp only [ih, Option.bind_assoc]

theorem takeByName_set_of_unknown {k : String} (h : slotNamed slots k = none) (v : Json) :
    takeByName slots r (ms.set k v) = takeByName slots r ms := by
  induction ms generalizing r with
  | nil => simp [Members.set, takeByName, h]
  | cons m ms ih =>
    obtain ⟨k', v'⟩ := m
    by_cases hk : k' = k
    · subst hk
      simp [Members.set, takeByName, h]
    · simp only [Members.set, if_neg hk, takeByName, ih]

/-- Members that are set one by one are taken in the order in which they come, for a key that comes
twice is one that no field has. -/
theorem takeByName_setAll (honce : KnownOnce slots seen es)
    (hseen : ∀ k ∈ Members.keys ms, slotNamed slots k ≠ none → k ∈ seen) :
    takeByName slots r (ms.setAll es) =
      (takeByName slots r ms).bind fun r => takeByName slots r es := by
  induction es generalizing ms seen with
  | nil =>
    show takeByName slots r ms = (takeByName slots r ms).bind some
    rw [Option.bind_fun_some]
  | cons e es ih =>
    obtain ⟨k, v⟩ := e
    show takeByName slots r (Members.setAll (ms.set k v) es) = _
    have hkeys : ∀ k' ∈ Members.keys (ms.set k v), k' ∈ Members.keys ms ∨ k' = k := by
      intro k' hk'
      rw [Members.keys_set] at hk'
      split at hk'
      · exact .inl hk'
      · rcases List.mem_append.mp hk' with hk' | hk'
        · exact .inl hk'
        · exact .inr (List.mem_singleton.mp hk')
    unfold KnownOnce at honce
    cases hslot : slotNamed slots k with
    | none =>
      simp only [hslot] at honce
      rw [ih honce, takeByName_set_of_unknown hslot]
      · simp only [takeByName, hslot]
      · intro k' hk' hknown
        rcases hkeys k' hk' with hk' | rfl
        · exact hseen k' hk' hknown
        · exact absurd hslot hknown
    | some s =>
      simp only [hslot] at honce
      obtain ⟨hnew, honce⟩ := honce
      have hfresh : k ∉ Members.keys ms := by
        intro hmem
        exact hnew (hseen k hmem (by simp [hslot]))
      rw [ih honce, Members.set_of_not_mem hfresh, takeByName_append]
      · simp [takeByName, hslot, Option.bind_assoc]
      · intro k' hk' hknown
        rcases hkeys k' hk' with hk' | rfl
        · exact List.mem_cons_of_mem k (hseen k' hk' hknown)
        · exact List.mem_cons_self

theorem takeByName_ofList (honce : KnownOnce slots [] es) :
    takeByName slots r (Members.ofList es) = takeByName slots r es :=
  @takeByName_setAll _ slots [] r es [] honce (by simp)

end

theorem takes_record (slots : List (Slot σ)) (r : σ) :
    Takes (fun depth => record (slots.map (·.field)) depth r) (takeRecord slots r) where
  sound := by
    intro unique depth v cs rest rest' a hspells h
    unfold record at h
    split at h
    · exact absurd h (by simp)
    · exact absurd h (by simp)
    · rename_i inner hs
      cases hspells with
      | scalar hscalar => exact absurd (by rw [hs]; rfl) (head_ne_of_scalar hscalar).1
      | array hopen hitems =>
        obtain ⟨-, rfl⟩ := List.cons.inj (hs.symm.trans hopen)
        exact takeInOrder_sound hitems h
      | object hopen => exact absurd (List.cons.inj (hs.symm.trans hopen)).1 (by decide)
    · rename_i inner hs
      cases hspells with
      | scalar hscalar => exact absurd (by rw [hs]; rfl) (head_ne_of_scalar hscalar).2
      | array hopen => exact absurd (List.cons.inj (hs.symm.trans hopen)).1 (by decide)
      | object hopen hunique hmembers =>
        obtain ⟨-, rfl⟩ := List.cons.inj (hs.symm.trans hopen)
        obtain ⟨htake, hrest, honce⟩ := takeByName_sound hmembers h
        exact ⟨(takeByName_ofList honce).trans htake, hrest⟩
    · exact absurd h (by simp)
  complete := by
    intro depth v cs rest a hspells h
    cases hspells with
    | scalar hscalar =>
      have hfits := fits_of_scalar hscalar 0
      cases hfits <;> exact absurd h (by simp [takeRecord])
    | array hopen hitems =>
      unfold record
      rw [hopen]
      exact takeInOrder_complete hitems h
    | @object _ es _ _ _ hopen hunique hmembers =>
      have hkeys := hunique trivial
      rw [Members.ofList_of_nodup hkeys] at h
      unfold record
      rw [hopen]
      exact takeByName_complete hmembers hkeys (by simp) (by omega) h

/-! ### Changed values -/

section

variable {slots : List (Slot σ)} {r a : σ} {ms : Members} {name : String}

theorem mem_of_slotNamed {s : Slot σ} (h : slotNamed slots name = some s) :
    s ∈ slots ∧ s.field.name = name :=
  ⟨List.mem_of_find?_eq_some h, by simpa using List.find?_some h⟩

/-- Where each field takes from a changed value what it took before, changed, so does the record. -/
theorem takeByName_map {f : String → Json → Json} {g : σ → σ}
    (h : ∀ s ∈ slots, ∀ r v, s.take (g r) (f s.field.name v) = (s.take r v).map g)
    (r : σ) (ms : Members) :
    takeByName slots (g r) (ms.map fun m => (m.1, f m.1 m.2)) =
      (takeByName slots r ms).map g := by
  induction ms generalizing r with
  | nil => rfl
  | cons m ms ih =>
    obtain ⟨k, v⟩ := m
    rw [List.map_cons, takeByName, takeByName]
    cases hslot : slotNamed slots k with
    | none => exact ih r
    | some s =>
      obtain ⟨hs, rfl⟩ := mem_of_slotNamed hslot
      simp only [h s hs]
      cases s.take r v with
      | none => rfl
      | some r' => exact ih r'

theorem takeInOrder_map {f : Json → Json} {g : σ → σ} {slots : List (Slot σ)}
    (h : ∀ s ∈ slots, ∀ r v, s.take (g r) (f v) = (s.take r v).map g) (r : σ) (vs : List Json) :
    takeInOrder slots (g r) (vs.map f) = (takeInOrder slots r vs).map g := by
  induction vs generalizing slots r with
  | nil =>
    rw [List.map_nil, takeInOrder, takeInOrder]
    split <;> rfl
  | cons v vs ih =>
    cases slots with
    | nil => rfl
    | cons s ss =>
      rw [List.map_cons, takeInOrder, takeInOrder, h s List.mem_cons_self]
      cases s.take r v with
      | none => rfl
      | some r' => exact ih (fun s hs => h s (List.mem_cons_of_mem _ hs)) r'

theorem takeRecord_mapNumbers {f : Number → Number} {g : σ → σ}
    (h : ∀ s ∈ slots, ∀ r v, s.take (g r) (v.mapNumbers f) = (s.take r v).map g) (r : σ) (v : Json) :
    takeRecord slots (g r) (v.mapNumbers f) = (takeRecord slots r v).map g := by
  cases v with
  | array vs =>
    rw [mapNumbers_array]
    exact takeInOrder_map h r vs
  | object ms =>
    rw [mapNumbers_object]
    exact takeByName_map (f := fun _ => mapNumbers f) h r ms
  | _ => simp [takeRecord]

/-- What a record has from the one field that sets it. -/
theorem get_of_takeByName {get : σ → β} {own : Json → β}
    (hother : ∀ s ∈ slots, s.field.name ≠ name → ∀ r v r', s.take r v = some r' → get r' = get r)
    (hown : ∀ s ∈ slots, s.field.name = name → ∀ r v r', s.take r v = some r' → get r' = own v)
    (hname : slotNamed slots name ≠ none) (hkeys : (Members.keys ms).Nodup)
    (h : takeByName slots r ms = some a) :
    get a = ((Members.get? name ms).map own).getD (get r) := by
  induction ms generalizing r with
  | nil =>
    obtain rfl := Option.some.inj h
    rfl
  | cons m ms ih =>
    obtain ⟨k, v⟩ := m
    obtain ⟨hk, hrest⟩ := List.nodup_cons.mp hkeys
    rw [takeByName] at h
    cases hslot : slotNamed slots k with
    | none =>
      have hne : k ≠ name := by
        rintro rfl
        exact hname hslot
      simp only [hslot] at h
      rw [ih hrest h, Members.get?, if_neg hne]
    | some s =>
      obtain ⟨hs, rfl⟩ := mem_of_slotNamed hslot
      simp only [hslot] at h
      obtain ⟨r', htake, h⟩ := Option.bind_eq_some_iff.mp h
      by_cases hne : s.field.name = name
      · have hnone := Members.get?_eq_none_iff.mpr hk
        simp only at hnone
        rw [hne] at hnone
        rw [ih hrest h, hnone, Members.get?, if_pos hne]
        exact hown s hs hne r v r' htake
      · rw [ih hrest h, hother s hs hne r v r' htake, Members.get?, if_neg hne]

end

end Workyard.Json
