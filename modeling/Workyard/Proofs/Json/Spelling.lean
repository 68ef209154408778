import Workyard.Proofs.Json.Members
import Workyard.Proofs.Json.Tokens

/-!
# What a text spells

A text spells a value when the readers of its tokens, one after the other, make that value. No
fuel occurs here: reading with fuel finds what is spelt and nothing else, and so does passing
over a value. The members of an object stand in the text one by one, and a key may come twice.
-/

namespace Workyard.Json

set_option autoImplicit false

/-- What a stretch of a text holds: a value, or what is left of a list or of an object. -/
inductive Phrase where
  | value (v : Json)
  | items (first : Bool) (vs : List Json)
  | members (first : Bool) (es : List (String × Json))

open Reader in
/-- `Spells unique depth p cs rest`: the text `cs` begins with the phrase `p`, in which arrays and
objects nest at most `depth` deep, and `rest` comes after it. Where `unique` holds, no object gives a
key twice. -/
inductive Spells (unique : Prop) : Nat → Phrase → List Char → List Char → Prop
  | scalar {depth : Nat} {v : Json} {cs rest : List Char} (h : value 1 0 cs = .ok (v, rest)) :
      Spells unique depth (.value v) cs rest
  | array {depth : Nat} {vs : List Json} {cs inner rest : List Char}
      (hopen : skipSpace cs = '[' :: inner) (hitems : Spells unique depth (.items true vs) inner rest) :
      Spells unique (depth + 1) (.value (.array vs)) cs rest
  | object {depth : Nat} {es : List (String × Json)} {cs inner rest : List Char}
      (hopen : skipSpace cs = '\x7b' :: inner) (hunique : unique → (Members.keys es).Nodup)
      (hmembers : Spells unique depth (.members true es) inner rest) :
      Spells unique (depth + 1) (.value (.object (Members.ofList es))) cs rest
  | noItem {depth : Nat} {first : Bool} {cs rest : List Char}
      (hend : nextItem first cs = .ok (false, rest)) : Spells unique depth (.items first []) cs rest
  | item {depth : Nat} {first : Bool} {v : Json} {vs : List Json} {cs body after rest : List Char}
      (hnext : nextItem first cs = .ok (true, body)) (hvalue : Spells unique depth (.value v) body after)
      (hitems : Spells unique depth (.items false vs) after rest) :
      Spells unique depth (.items first (v :: vs)) cs rest
  | noMember {depth : Nat} {first : Bool} {cs rest : List Char}
      (hend : nextMember first cs = .ok (false, rest)) : Spells unique depth (.members first []) cs rest
  | member {depth : Nat} {first : Bool} {k : String} {v : Json} {es : List (String × Json)}
      {cs key mark body after rest : List Char}
      (hnext : nextMember first cs = .ok (true, key)) (hkey : Reader.string key = .ok (k, mark))
      (hcolon : colon mark = .ok body) (hvalue : Spells unique depth (.value v) body after)
      (hmembers : Spells unique depth (.members false es) after rest) :
      Spells unique depth (.members first ((k, v) :: es)) cs rest

namespace Reader

variable {fuel depth : Nat}

/-! ### Reading finds what is spelt -/

theorem items_eq_ok {first : Bool} {cs rest : List Char} {vs : List Json}
    (h : items (fuel + 1) depth first cs = .ok (vs, rest)) :
    (nextItem first cs = .ok (false, rest) ∧ vs = []) ∨
    ∃ body v after tail, nextItem first cs = .ok (true, body) ∧
      value fuel depth body = .ok (v, after) ∧ items fuel depth false after = .ok (tail, rest) ∧
      vs = v :: tail := by
  unfold items at h
  obtain ⟨⟨more, body⟩, hnext, h⟩ := bind_eq_ok.mp h
  cases more with
  | false =>
    simp only [Bool.false_eq_true, if_false, Except.ok.injEq, Prod.mk.injEq] at h
    obtain ⟨rfl, rfl⟩ := h
    exact .inl ⟨hnext, rfl⟩
  | true =>
    simp only [if_true] at h
    obtain ⟨⟨v, after⟩, hvalue, h⟩ := bind_eq_ok.mp h
    obtain ⟨⟨tail, last⟩, hitems, h⟩ := bind_eq_ok.mp h
    simp only [Except.ok.injEq, Prod.mk.injEq] at h
    obtain ⟨rfl, rfl⟩ := h
    exact .inr ⟨body, v, after, tail, hnext, hvalue, hitems, rfl⟩

theorem members_eq_ok {first : Bool} {cs rest : List Char} {ms ms' : Members}
    (h : members (fuel + 1) depth first ms cs = .ok (ms', rest)) :
    (nextMember first cs = .ok (false, rest) ∧ ms' = ms) ∨
    ∃ key k mark body v after, nextMember first cs = .ok (true, key) ∧
      string key = .ok (k, mark) ∧ colon mark = .ok body ∧
      value fuel depth body = .ok (v, after) ∧
      members fuel depth false (ms.set k v) after = .ok (ms', rest) := by
  unfold members at h
  obtain ⟨⟨more, key⟩, hnext, h⟩ := bind_eq_ok.mp h
  cases more with
  | false =>
    simp only [Bool.false_eq_true, if_false, Except.ok.injEq, Prod.mk.injEq] at h
    obtain ⟨rfl, rfl⟩ := h
    exact .inl ⟨hnext, rfl⟩
  | true =>
    simp only [if_true] at h
    obtain ⟨⟨k, mark⟩, hkey, h⟩ := bind_eq_ok.mp h
    obtain ⟨body, hcolon, h⟩ := bind_eq_ok.mp h
    obtain ⟨⟨v, after⟩, hvalue, h⟩ := bind_eq_ok.mp h
    exact .inr ⟨key, k, mark, body, v, after, hnext, hkey, hcolon, hvalue, h⟩

theorem value_eq_ok {cs rest : List Char} {v : Json}
    (h : value (fuel + 1) depth cs = .ok (v, rest)) :
    value 1 0 cs = .ok (v, rest) ∨
    (∃ inner d vs, skipSpace cs = '[' :: inner ∧ depth = d + 1 ∧
      items fuel d true inner = .ok (vs, rest) ∧ v = .array vs) ∨
    ∃ inner d ms, skipSpace cs = '\x7b' :: inner ∧ depth = d + 1 ∧
      members fuel d true [] inner = .ok (ms, rest) ∧ v = .object ms := by
  by_cases harray : (skipSpace cs).head? = some '['
  · obtain ⟨inner, hs⟩ := List.head?_eq_some_iff.mp harray
    cases depth with
    | zero =>
      rw [(value_array hs fuel 0).1] at h
      exact absurd h (by simp)
    | succ d =>
      rw [(value_array hs fuel d).2] at h
      obtain ⟨⟨vs, last⟩, hitems, h⟩ := bind_eq_ok.mp h
      simp only [Except.ok.injEq, Prod.mk.injEq] at h
      obtain ⟨rfl, rfl⟩ := h
      exact .inr (.inl ⟨inner, d, vs, hs, rfl, hitems, rfl⟩)
  · by_cases hobject : (skipSpace cs).head? = some '\x7b'
    · obtain ⟨inner, hs⟩ := List.head?_eq_some_iff.mp hobject
      cases depth with
      | zero =>
        rw [(value_object hs fuel 0).1] at h
        exact absurd h (by simp)
      | succ d =>
        rw [(value_object hs fuel d).2] at h
        obtain ⟨⟨ms, last⟩, hmembers, h⟩ := bind_eq_ok.mp h
        simp only [Except.ok.injEq, Prod.mk.injEq] at h
        obtain ⟨rfl, rfl⟩ := h
        exact .inr (.inr ⟨inner, d, ms, hs, rfl, hmembers, rfl⟩)
    · rw [value_scalar harray hobject] at h
      exact .inl h

/-- Values, lists and objects call each other with less fuel, so that the induction on the fuel
is about all three at once. -/
theorem spells_of_reads (fuel : Nat) :
    (∀ depth cs v rest, value fuel depth cs = .ok (v, rest) → Spells False depth (.value v) cs rest) ∧
    (∀ depth first cs vs rest, items fuel depth first cs = .ok (vs, rest) →
      Spells False depth (.items first vs) cs rest) ∧
    (∀ depth first ms cs ms' rest, members fuel depth first ms cs = .ok (ms', rest) →
      ∃ es, ms' = ms.setAll es ∧ Spells False depth (.members first es) cs rest) := by
  induction fuel with
  | zero =>
    refine ⟨?_, ?_, ?_⟩ <;> intros <;> rename_i h
    · exact absurd h (by simp [value])
    · exact absurd h (by simp [items])
    · exact absurd h (by simp [members])
  | succ fuel ih =>
    obtain ⟨ihValue, ihItems, ihMembers⟩ := ih
    refine ⟨?_, ?_, ?_⟩
    · intro depth cs v rest h
      rcases value_eq_ok h with
        hscalar | ⟨inner, d, vs, hs, rfl, hitems, rfl⟩ | ⟨inner, d, ms, hs, rfl, hmembers, rfl⟩
      · exact .scalar hscalar
      · exact .array hs (ihItems _ _ _ _ _ hitems)
      · obtain ⟨es, rfl, hspells⟩ := ihMembers _ _ _ _ _ _ hmembers
        exact .object hs False.elim hspells
    · intro depth first cs vs rest h
      rcases items_eq_ok h with ⟨hend, rfl⟩ | ⟨body, v, after, tail, hnext, hvalue, htail, rfl⟩
      · exact .noItem hend
      · exact .item hnext (ihValue _ _ _ _ hvalue) (ihItems _ _ _ _ _ htail)
    · intro depth first ms cs ms' rest h
      rcases members_eq_ok h with
        ⟨hend, rfl⟩ | ⟨key, k, mark, body, v, after, hnext, hkey, hcolon, hvalue, htail⟩
      · exact ⟨[], rfl, .noMember hend⟩
      · obtain ⟨es, rfl, hspells⟩ := ihMembers _ _ _ _ _ _ htail
        exact ⟨(k, v) :: es, rfl, .member hnext hkey hcolon (ihValue _ _ _ _ hvalue) hspells⟩

theorem spells_of_value {cs rest : List Char} {v : Json}
    (h : value fuel depth cs = .ok (v, rest)) : Spells False depth (.value v) cs rest :=
  (spells_of_reads fuel).1 depth cs v rest h

end Reader

/-! ### What is spelt is read -/

theorem Spells.length_lt {unique : Prop} {depth : Nat} {p : Phrase} {cs rest : List Char}
    (h : Spells unique depth p cs rest) : rest.length < cs.length := by
  induction h with
  | scalar h => exact (Reader.skip_of_scalar h).1
  | array hopen _ ih =>
    have := Reader.length_lt_of_skipSpace hopen
    omega
  | object hopen _ _ ih =>
    have := Reader.length_lt_of_skipSpace hopen
    omega
  | noItem hend => exact (Reader.length_of_nextItem hend).2 rfl
  | item hnext _ _ ihValue ihItems =>
    have := (Reader.length_of_nextItem hnext).1
    omega
  | noMember hend => exact Reader.length_of_nextMember hend
  | member hnext hkey hcolon _ _ ihValue ihMembers =>
    have := Reader.length_of_nextMember hnext
    have := Reader.length_of_string hkey
    have := Reader.length_of_colon hcolon
    omega

/-- Two steps of fuel for each character suffice to read a phrase, and to pass over it. -/
def Phrase.ReadFrom (depth : Nat) (cs rest : List Char) : Phrase → Prop
  | .value v => ∀ fuel, 2 * cs.length ≤ fuel →
      Reader.value fuel depth cs = .ok (v, rest) ∧ Reader.skipValue fuel cs = .ok rest
  | .items first vs => ∀ fuel, 2 * cs.length < fuel →
      Reader.items fuel depth first cs = .ok (vs, rest) ∧
        Reader.skipItems fuel first cs = .ok rest
  | .members first es => ∀ fuel, 2 * cs.length < fuel →
      (∀ ms : Members, Reader.members fuel depth first ms cs = .ok (ms.setAll es, rest)) ∧
        Reader.skipMembers fuel first cs = .ok rest

theorem Spells.readFrom {unique : Prop} {depth : Nat} {p : Phrase} {cs rest : List Char}
    (h : Spells unique depth p cs rest) : p.ReadFrom depth cs rest := by
  induction h with
  | scalar h =>
    intro fuel hfuel
    obtain ⟨hlt, hskip⟩ := Reader.skip_of_scalar h
    obtain ⟨k, rfl⟩ : ∃ k, fuel = k + 1 := ⟨fuel - 1, by omega⟩
    exact ⟨Reader.value_of_scalar h k _, hskip k⟩
  | array hopen _ ih =>
    intro fuel hfuel
    have hlt := Reader.length_lt_of_skipSpace hopen
    obtain ⟨k, rfl⟩ : ∃ k, fuel = k + 1 := ⟨fuel - 1, by omega⟩
    obtain ⟨hitems, hskip⟩ := ih k (by omega)
    constructor
    · rw [(Reader.value_array hopen k _).2, hitems]
      rfl
    · simp [Reader.skipValue, hopen, hskip]
  | object hopen _ _ ih =>
    intro fuel hfuel
    have hlt := Reader.length_lt_of_skipSpace hopen
    obtain ⟨k, rfl⟩ : ∃ k, fuel = k + 1 := ⟨fuel - 1, by omega⟩
    obtain ⟨hmembers, hskip⟩ := ih k (by omega)
    constructor
    · rw [(Reader.value_object hopen k _).2, hmembers []]
      rfl
    · simp [Reader.skipValue, hopen, hskip]
  | noItem hend =>
    intro fuel hfuel
    obtain ⟨k, rfl⟩ : ∃ k, fuel = k + 1 := ⟨fuel - 1, by omega⟩
    constructor
    · simp [Reader.items, hend, Bind.bind, Except.bind]
    · simp [Reader.skipItems, hend, Bind.bind, Except.bind]
  | item hnext hvalue _ ihValue ihItems =>
    intro fuel hfuel
    have hle := (Reader.length_of_nextItem hnext).1
    have hlt := hvalue.length_lt
    obtain ⟨k, rfl⟩ : ∃ k, fuel = k + 1 := ⟨fuel - 1, by omega⟩
    obtain ⟨hv, hskip⟩ := ihValue k (by omega)
    obtain ⟨hvs, hskips⟩ := ihItems k (by omega)
    constructor
    · simp [Reader.items, hnext, hv, hvs, Bind.bind, Except.bind]
    · simp [Reader.skipItems, hnext, hskip, hskips, Bind.bind, Except.bind]
  | noMember hend =>
    intro fuel hfuel
    obtain ⟨k, rfl⟩ : ∃ k, fuel = k + 1 := ⟨fuel - 1, by omega⟩
    constructor
    · intro ms
      simp [Reader.members, hend, Members.setAll, Bind.bind, Except.bind]
    · simp [Reader.skipMembers, hend, Bind.bind, Except.bind]
  | member hnext hkey hcolon hvalue _ ihValue ihMembers =>
    intro fuel hfuel
    have hnextLt := Reader.length_of_nextMember hnext
    have hkeyLt := Reader.length_of_string hkey
    have hcolonLt := Reader.length_of_colon hcolon
    have hlt := hvalue.length_lt
    have hskipKey := Reader.skipString_of_string hkey
    obtain ⟨k, rfl⟩ : ∃ k, fuel = k + 1 := ⟨fuel - 1, by omega⟩
    obtain ⟨hv, hskip⟩ := ihValue k (by omega)
    obtain ⟨hes, hskips⟩ := ihMembers k (by omega)
    constructor
    · intro ms
      simp [Reader.members, hnext, hkey, hcolon, hv, hes, Members.setAll, Bind.bind, Except.bind]
    · simp [Reader.skipMembers, hnext, hskipKey, hcolon, hskip, hskips, Bind.bind, Except.bind]

theorem Spells.value_eq {unique : Prop} {fuel depth : Nat} {v : Json} {cs rest : List Char}
    (h : Spells unique depth (.value v) cs rest) (hfuel : 2 * cs.length ≤ fuel) :
    Reader.value fuel depth cs = .ok (v, rest) :=
  (h.readFrom fuel hfuel).1

theorem Spells.skipValue_eq {unique : Prop} {fuel depth : Nat} {v : Json} {cs rest : List Char}
    (h : Spells unique depth (.value v) cs rest) (hfuel : 2 * cs.length ≤ fuel) :
    Reader.skipValue fuel cs = .ok rest :=
  (h.readFrom fuel hfuel).2

theorem Spells.members_eq {unique : Prop} {fuel depth : Nat} {first : Bool} {es : List (String × Json)}
    {cs rest : List Char} (h : Spells unique depth (.members first es) cs rest)
    (hfuel : 2 * cs.length < fuel) :
    Reader.members fuel depth first [] cs = .ok (Members.ofList es, rest) :=
  (h.readFrom fuel hfuel).1 []

/-- A text reads as a value exactly if it spells the value and only white space comes after. -/
theorem parse_eq_ok_iff {text : String} {v : Json} :
    parse text = .ok v ↔
      ∃ rest, Spells False Reader.maxDepth (.value v) text.toList rest ∧ Reader.skipSpace rest = [] := by
  constructor
  · intro h
    obtain ⟨⟨w, rest⟩, hvalue, h⟩ := bind_eq_ok.mp h
    simp only at h
    split at h
    · rename_i hrest
      simp only [Except.ok.injEq] at h
      subst h
      exact ⟨rest, Reader.spells_of_value hvalue, List.isEmpty_iff.mp hrest⟩
    · exact absurd h (by simp)
  · rintro ⟨rest, hspells, hrest⟩
    unfold parse Reader.finish
    simp only
    rw [hspells.value_eq (by omega)]
    simp [hrest, Bind.bind, Except.bind]

/-! ### What can be spelt -/

/-- `Fits depth v`: arrays and objects nest at most `depth` deep in `v`, and no object in it has two
members of one key. -/
inductive Fits : Nat → Json → Prop
  | null {depth : Nat} : Fits depth .null
  | bool {depth : Nat} (b : Bool) : Fits depth (.bool b)
  | number {depth : Nat} (n : Number) : Fits depth (.number n)
  | string {depth : Nat} (s : String) : Fits depth (.string s)
  | array {depth : Nat} {vs : List Json} (h : ∀ v ∈ vs, Fits depth v) :
      Fits (depth + 1) (.array vs)
  | object {depth : Nat} {ms : Members} (hkeys : (Members.keys ms).Nodup)
      (h : ∀ m ∈ ms, Fits depth m.2) : Fits (depth + 1) (.object ms)

/-- A value that is read in one go holds no others. -/
theorem fits_of_scalar {cs rest : List Char} {v : Json} (h : Reader.value 1 0 cs = .ok (v, rest))
    (depth : Nat) : Fits depth v := by
  obtain ⟨c, tail, -, hscalar⟩ := Reader.scalar_of_value h
  cases hscalar with
  | null => exact .null
  | true => exact .bool true
  | false => exact .bool false
  | negative => exact .number _
  | number => exact .number _
  | string => exact .string _

theorem Spells.fits {unique : Prop} {depth : Nat} {v : Json} {cs rest : List Char}
    (h : Spells unique depth (.value v) cs rest) : Fits depth v := by
  have holds : ∀ {depth p cs rest}, Spells unique depth p cs rest →
      match p with
      | .value v => Fits depth v
      | .items _ vs => ∀ v ∈ vs, Fits depth v
      | .members _ es => ∀ e ∈ es, Fits depth e.2 := by
    intro depth p cs rest h
    induction h with
    | scalar h => exact fits_of_scalar h _
    | array _ _ ih => exact .array ih
    | object _ _ _ ih => exact .object (Members.nodup_keys_ofList _) fun m hm => ih m (Members.mem_ofList hm)
    | noItem => simp
    | item _ _ _ ihValue ihItems => simpa using ⟨ihValue, ihItems⟩
    | noMember => simp
    | member _ _ _ _ _ ihValue ihMembers => exact List.forall_mem_cons.mpr ⟨ihValue, ihMembers⟩
  exact holds h

theorem fits_of_parse {text : String} {v : Json} (h : parse text = .ok v) :
    Fits Reader.maxDepth v := by
  obtain ⟨rest, hspells, -⟩ := parse_eq_ok_iff.mp h
  exact hspells.fits

end Workyard.Json
