import Workyard.Json.Record

/-!
# Tokens

What the readers of words, strings, numbers and separators leave of a text. Each of them comes
nearer to the end, and passing over a token ends where reading it ends.
-/

namespace Workyard

set_option autoImplicit false

theorem result_of_toOption {ε α : Type} {x : Except ε α} {a : α} (h : x.toOption = some a) :
    x = .ok a := by
  cases x with
  | error e => simp [Except.toOption] at h
  | ok b =>
    obtain rfl := Option.some.inj h
    rfl

namespace Json

theorem bind_eq_ok {ε α β : Type} {x : Except ε α} {f : α → Except ε β} {b : β} :
    (x >>= f) = .ok b ↔ ∃ a, x = .ok a ∧ f a = .ok b := by
  cases x <;> simp [Bind.bind, Except.bind]

namespace Reader

/-! ### Words and separators -/

theorem length_skipSpace_le (cs : List Char) : (skipSpace cs).length ≤ cs.length :=
  (List.dropWhile_suffix isSpace).length_le

theorem skipSpace_cons_of_space {c : Char} (h : isSpace c = true) (cs : List Char) :
    skipSpace (c :: cs) = skipSpace cs := by
  simp [skipSpace, h]

theorem skipSpace_cons {c : Char} (h : isSpace c = false) (cs : List Char) :
    skipSpace (c :: cs) = c :: cs := by
  simp [skipSpace, h]

theorem length_lt_of_skipSpace {c : Char} {cs rest : List Char} (h : skipSpace cs = c :: rest) :
    rest.length < cs.length := by
  have hle := length_skipSpace_le cs
  rw [h, List.length_cons] at hle
  exact hle

theorem wordTail_eq_ok {ws cs rest : List Char} (h : wordTail ws cs = .ok rest) :
    cs = ws ++ rest := by
  induction ws generalizing cs with
  | nil =>
    simp only [wordTail, Except.ok.injEq] at h
    exact h
  | cons w ws ih =>
    cases cs with
    | nil => simp [wordTail] at h
    | cons c cs =>
      simp only [wordTail] at h
      split at h
      · rename_i hc
        rw [hc, ih h]
        rfl
      · exact absurd h (by simp)

theorem length_of_nextItem {first more : Bool} {cs rest : List Char}
    (h : nextItem first cs = .ok (more, rest)) :
    rest.length ≤ cs.length ∧ (more = false → rest.length < cs.length) := by
  have hle := length_skipSpace_le cs
  unfold nextItem at h
  split at h
  · exact absurd h (by simp)
  · rename_i c tail hs
    rw [hs, List.length_cons] at hle
    split at h
    · simp only [Except.ok.injEq, Prod.mk.injEq] at h
      obtain ⟨rfl, rfl⟩ := h
      exact ⟨by omega, fun _ => by omega⟩
    · split at h
      · have htail := length_skipSpace_le tail
        split at h
        · exact absurd h (by simp)
        · exact absurd h (by simp)
        · simp only [Except.ok.injEq, Prod.mk.injEq] at h
          obtain ⟨rfl, rfl⟩ := h
          exact ⟨by omega, fun hmore => absurd hmore (by simp)⟩
      · split at h
        · simp only [Except.ok.injEq, Prod.mk.injEq] at h
          obtain ⟨rfl, rfl⟩ := h
          exact ⟨by rw [List.length_cons]; exact hle, fun hmore => absurd hmore (by simp)⟩
        · exact absurd h (by simp)

theorem length_of_nextMember {first more : Bool} {cs rest : List Char}
    (h : nextMember first cs = .ok (more, rest)) : rest.length < cs.length := by
  have hle := length_skipSpace_le cs
  unfold nextMember at h
  simp only at h
  split at h
  · exact absurd h (by simp)
  · rename_i c tail hs
    rw [hs, List.length_cons] at hle
    split at h
    · simp only [Except.ok.injEq, Prod.mk.injEq] at h
      obtain ⟨-, rfl⟩ := h
      exact hle
    · split at h
      · split at h
        · exact absurd h (by simp)
        · rename_i hs'
          have hlt := length_lt_of_skipSpace hs'
          split at h
          · simp only [Except.ok.injEq, Prod.mk.injEq] at h
            obtain ⟨-, rfl⟩ := h
            omega
          · exact absurd h (by simp)
      · split at h
        · split at h
          · simp only [Except.ok.injEq, Prod.mk.injEq] at h
            obtain ⟨-, rfl⟩ := h
            exact hle
          · exact absurd h (by simp)
        · exact absurd h (by simp)

theorem length_of_colon {cs rest : List Char} (h : colon cs = .ok rest) :
    rest.length < cs.length := by
  unfold colon at h
  split at h
  · exact absurd h (by simp)
  · rename_i c tail hs
    have hlt := length_lt_of_skipSpace hs
    split at h
    · simp only [Except.ok.injEq] at h
      exact h ▸ hlt
    · exact absurd h (by simp)

/-! ### Strings -/

theorem length_of_fourHex {cs rest : List Char} {n : Nat} (h : fourHex cs = .ok (n, rest)) :
    rest.length + 4 = cs.length := by
  unfold fourHex at h
  split at h
  · exact absurd h (by simp)
  · split at h
    · split at h
      · simp only [Except.ok.injEq, Prod.mk.injEq] at h
        obtain ⟨-, rfl⟩ := h
        simp
      · exact absurd h (by simp)
    · exact absurd h (by simp)

/-- The digits of an escape, of which a pair of surrogates has eight with the letters between
them. -/
theorem unicodeEscape_eq_ok {cs rest : List Char} {x : Char}
    (h : unicodeEscape cs = .ok (x, rest)) :
    ∃ n tail, fourHex cs = .ok (n, tail) ∧
      (tail = rest ∨ ∃ m tail', tail = '\\' :: 'u' :: tail' ∧ fourHex tail' = .ok (m, rest)) := by
  obtain ⟨⟨n, tail⟩, hfour, h⟩ := bind_eq_ok.mp h
  refine ⟨n, tail, hfour, ?_⟩
  simp only at h
  split at h
  · exact absurd h (by simp)
  · split at h
    · simp only [Except.ok.injEq, Prod.mk.injEq] at h
      exact .inl h.2
    · split at h
      · exact absurd h (by simp)
      · split at h
        · exact absurd h (by simp)
        · obtain ⟨⟨m, last⟩, hlow, h⟩ := bind_eq_ok.mp h
          simp only at h
          split at h
          · exact absurd h (by simp)
          · simp only [Except.ok.injEq, Prod.mk.injEq] at h
            obtain ⟨-, rfl⟩ := h
            exact .inr ⟨m, _, rfl, hlow⟩
        · exact absurd h (by simp)
      · exact absurd h (by simp)

/-- Passing over the rest of a string ends at `rest`, with fuel for each character. -/
def StringEnds (cs rest : List Char) : Prop :=
  rest.length < cs.length ∧ ∀ fuel, cs.length < fuel → skipString fuel cs = .ok rest

theorem stringEnds_of_step {n : Nat} {cs tail rest : List Char} (h : StringEnds tail rest)
    (hlength : tail.length + n ≤ cs.length)
    (hstep : ∀ fuel, skipString (fuel + n) cs = skipString fuel tail) : StringEnds cs rest := by
  obtain ⟨hrest, hskip⟩ := h
  refine ⟨by omega, fun fuel hfuel => ?_⟩
  obtain ⟨k, rfl⟩ : ∃ k, fuel = k + n := ⟨fuel - n, by omega⟩
  rw [hstep k]
  exact hskip k (by omega)

theorem stringEnds_of_stringTail {fuel : Nat} {cs rest xs : List Char}
    (h : stringTail fuel cs = .ok (xs, rest)) : StringEnds cs rest := by
  induction fuel generalizing cs xs with
  | zero => simp [stringTail] at h
  | succ fuel ih =>
    cases cs with
    | nil => simp [stringTail] at h
    | cons c cs =>
      unfold stringTail at h
      split at h
      · rename_i hquote
        simp only [Except.ok.injEq, Prod.mk.injEq] at h
        obtain ⟨-, rfl⟩ := h
        refine ⟨by simp, fun fuel' hfuel => ?_⟩
        obtain ⟨k, rfl⟩ : ∃ k, fuel' = k + 1 := ⟨fuel' - 1, by omega⟩
        simp [skipString, hquote]
      · rename_i hquote
        split at h
        · rename_i hslash
          split at h
          · exact absurd h (by simp)
          · rename_i e cs
            split at h
            · rename_i hu
              obtain ⟨⟨x, tail⟩, hescape, h⟩ := bind_eq_ok.mp h
              obtain ⟨⟨ys, last⟩, htail, h⟩ := bind_eq_ok.mp h
              simp only [Except.ok.injEq, Prod.mk.injEq] at h
              obtain ⟨-, rfl⟩ := h
              obtain ⟨n, mid, hfour, hmid⟩ := unicodeEscape_eq_ok hescape
              have hfirst := length_of_fourHex hfour
              rcases hmid with rfl | ⟨m, low, rfl, hlow⟩
              · refine stringEnds_of_step (n := 1) (ih htail) ?_ fun k => ?_
                · simp only [List.length_cons]
                  omega
                · simp [skipString, hslash, hu, hfour, Bind.bind, Except.bind]
              · have hsecond := length_of_fourHex hlow
                refine stringEnds_of_step (n := 2) (ih htail) ?_ fun k => ?_
                · simp only [List.length_cons] at hfirst ⊢
                  omega
                · simp [skipString, hslash, hu, hfour, hlow, Bind.bind, Except.bind]
            · rename_i hu
              split at h
              · rename_i x hplain
                obtain ⟨⟨ys, last⟩, htail, h⟩ := bind_eq_ok.mp h
                simp only [Except.ok.injEq, Prod.mk.injEq] at h
                obtain ⟨-, rfl⟩ := h
                refine stringEnds_of_step (n := 1) (ih htail) (by simp) fun k => ?_
                simp [skipString, hslash, hu, hplain]
              · exact absurd h (by simp)
        · rename_i hslash
          split at h
          · exact absurd h (by simp)
          · rename_i hcontrol
            obtain ⟨⟨ys, last⟩, htail, h⟩ := bind_eq_ok.mp h
            simp only [Except.ok.injEq, Prod.mk.injEq] at h
            obtain ⟨-, rfl⟩ := h
            refine stringEnds_of_step (n := 1) (ih htail) (by simp) fun k => ?_
            simp only [skipString, hquote, hslash, hcontrol, if_false]

theorem stringTail_of_string {cs rest : List Char} {s : String} (h : string cs = .ok (s, rest)) :
    ∃ xs, stringTail (cs.length + 1) cs = .ok (xs, rest) := by
  obtain ⟨⟨xs, tail⟩, htail, h⟩ := bind_eq_ok.mp h
  simp only [Except.ok.injEq, Prod.mk.injEq] at h
  obtain ⟨-, rfl⟩ := h
  exact ⟨xs, htail⟩

theorem length_of_string {cs rest : List Char} {s : String} (h : string cs = .ok (s, rest)) :
    rest.length < cs.length := by
  obtain ⟨xs, hxs⟩ := stringTail_of_string h
  exact (stringEnds_of_stringTail hxs).1

theorem skipString_of_string {cs rest : List Char} {s : String} (h : string cs = .ok (s, rest)) :
    skipString (cs.length + 1) cs = .ok rest := by
  obtain ⟨xs, hxs⟩ := stringTail_of_string h
  exact (stringEnds_of_stringTail hxs).2 _ (by omega)

/-! ### Numbers -/

theorem length_digitRun (cs : List Char) :
    (digitRun cs).2.length + (digitRun cs).1.length = cs.length := by
  have h := congrArg List.length (List.takeWhile_append_dropWhile (p := Char.isDigit) (l := cs))
  simp only [digitRun, List.length_append, List.length_map] at h ⊢
  omega

/-- An exponent without its sign. -/
def afterSign : List Char → List Char
  | '+' :: cs => cs
  | '-' :: cs => cs
  | cs => cs

theorem length_afterSign_le (cs : List Char) : (afterSign cs).length ≤ cs.length := by
  unfold afterSign
  split <;> simp

theorem afterSign_of_split {cs ds : List Char} {negative : Bool}
    (h : (match cs with
      | '+' :: cs => (false, cs)
      | '-' :: cs => (true, cs)
      | _ => (false, cs)) = (negative, ds)) : afterSign cs = ds := by
  split at h
  · exact (Prod.mk.inj h).2
  · exact (Prod.mk.inj h).2
  · rename_i hplus hminus
    rw [← (Prod.mk.inj h).2]
    unfold afterSign
    split
    · exact absurd rfl (hplus _)
    · exact absurd rfl (hminus _)
    · rfl

theorem digits_of_exponentTail {cs rest : List Char} {e : Int}
    (h : exponentTail cs = .ok (e, rest)) :
    (digitRun (afterSign cs)).1 ≠ [] ∧ (digitRun (afterSign cs)).2 = rest := by
  unfold exponentTail at h
  split at h
  rename_i negative ds hsign
  rw [afterSign_of_split hsign]
  split at h
  · exact absurd h (by simp)
  · exact absurd h (by simp)
  · rename_i xs tail hnil _ hrun
    simp only [Except.ok.injEq, Prod.mk.injEq] at h
    rw [hrun]
    exact ⟨hnil, h.2⟩

theorem skip_of_realTail {negative : Bool} {s : Significand} {cs rest : List Char} {n : Number}
    (h : realTail negative s cs = .ok (n, rest)) :
    rest.length ≤ cs.length ∧
      (if startsExponent cs then
        match digitRun (afterSign (cs.drop 1)) with
        | ([], _) => .error .malformed
        | (_, cs) => .ok cs
      else .ok cs : Except Fault (List Char)) = .ok rest := by
  unfold realTail at h
  split at h
  · rename_i hexponent
    obtain ⟨⟨e, tail⟩, htail, h⟩ := bind_eq_ok.mp h
    obtain ⟨m, -, h⟩ := bind_eq_ok.mp h
    simp only [Except.ok.injEq, Prod.mk.injEq] at h
    obtain ⟨-, rfl⟩ := h
    obtain ⟨hdigits, hrest⟩ := digits_of_exponentTail htail
    have hrun := length_digitRun (afterSign (cs.drop 1))
    have hsign := length_afterSign_le (cs.drop 1)
    rw [hrest] at hrun
    rw [List.length_drop] at hsign
    refine ⟨by omega, ?_⟩
    rw [if_pos hexponent]
    split
    · rename_i heq
      exact absurd (congrArg Prod.fst heq) hdigits
    · rename_i heq
      rw [← hrest, heq]
  · rename_i hexponent
    obtain ⟨m, -, h⟩ := bind_eq_ok.mp h
    simp only [Except.ok.injEq, Prod.mk.injEq] at h
    obtain ⟨-, rfl⟩ := h
    exact ⟨Nat.le_refl _, if_neg hexponent⟩

/-- Where the digits of a numeral end, which is where its whole part or its fraction ends. -/
inductive Significant : List Char → List Char → Prop
  | whole {cs : List Char} (hne : (digitRun cs).1 ≠ [])
      (hzero : ∀ d ds, (digitRun cs).1 ≠ 0 :: d :: ds)
      (hpoint : ∀ tail, (digitRun cs).2 ≠ '.' :: tail) : Significant cs (digitRun cs).2
  | fraction {cs tail : List Char} (hne : (digitRun cs).1 ≠ [])
      (hzero : ∀ d ds, (digitRun cs).1 ≠ 0 :: d :: ds) (hpoint : (digitRun cs).2 = '.' :: tail)
      (hplaces : (digitRun tail).1 ≠ []) : Significant cs (digitRun tail).2

theorem Significant.length_lt {cs tail : List Char} (h : Significant cs tail) :
    tail.length < cs.length := by
  have hcs := length_digitRun cs
  have hpos : ∀ ds : List Nat, ds ≠ [] → 0 < ds.length := fun ds hds => List.length_pos_iff.mpr hds
  cases h with
  | whole hne _ _ =>
    have := hpos _ hne
    omega
  | fraction hne _ hpoint _ =>
    rename_i after _ _
    have := hpos _ hne
    have htail := length_digitRun after
    have hdrop := congrArg List.length hpoint
    rw [List.length_cons] at hdrop
    omega

theorem significant_of_number {negative : Bool} {cs rest : List Char} {n : Number}
    (h : number negative cs = .ok (n, rest)) :
    ∃ tail, Significant cs tail ∧
      ((∃ s, realTail negative s tail = .ok (n, rest)) ∨
        startsExponent tail = false ∧ tail = rest) := by
  unfold number at h
  split at h
  · exact absurd h (by simp)
  · exact absurd h (by simp)
  · exact absurd h (by simp)
  · rename_i cs _ _ ds whole hne hzero _ hrun
    have hne' : (digitRun cs).1 ≠ [] := by rw [hrun]; exact hne
    have hzero' : ∀ d ds, (digitRun cs).1 ≠ 0 :: d :: ds := by rw [hrun]; exact hzero
    split at h
    rename_i full s _
    split at h
    · split at h
      · exact absurd h (by simp)
      · exact absurd h (by simp)
      · rename_i tail _ _ fs after hplaces _ hfraction
        have hplaces' : (digitRun tail).1 ≠ [] := by rw [hfraction]; exact hplaces
        refine ⟨(digitRun tail).2, .fraction hne' hzero' (by rw [hrun]) hplaces', .inl ?_⟩
        rw [hfraction]
        exact ⟨_, h⟩
    · rename_i hpoint
      refine ⟨(digitRun cs).2, .whole hne' hzero' (by rw [hrun]; exact hpoint), ?_⟩
      rw [hrun]
      split at h
      · exact .inl ⟨s, h⟩
      · rename_i hreal
        simp only [Except.ok.injEq, Prod.mk.injEq] at h
        simp only [Bool.or_eq_true, not_or, Bool.not_eq_true] at hreal
        exact .inr ⟨hreal.2, h.2⟩

theorem skipNumber_of_significant {cs tail rest : List Char} (h : Significant cs tail)
    (hrest : (if startsExponent tail then
        match digitRun (afterSign (tail.drop 1)) with
        | ([], _) => .error .malformed
        | (_, cs) => .ok cs
      else .ok tail : Except Fault (List Char)) = .ok rest) :
    skipNumber cs = .ok rest := by
  unfold skipNumber
  cases h with
  | whole hne hzero hpoint =>
    simp only [Bind.bind, Except.bind]
    exact hrest
  | fraction hne hzero hpoint hplaces =>
    simp only [Bind.bind, Except.bind, hpoint]
    exact hrest

theorem skipNumber_of_number {negative : Bool} {cs rest : List Char} {n : Number}
    (h : number negative cs = .ok (n, rest)) :
    rest.length < cs.length ∧ skipNumber cs = .ok rest := by
  obtain ⟨tail, hsignificant, htail⟩ := significant_of_number h
  have hlength := hsignificant.length_lt
  rcases htail with ⟨s, htail⟩ | ⟨hexponent, rfl⟩
  · obtain ⟨hle, hskip⟩ := skip_of_realTail htail
    exact ⟨by omega, skipNumber_of_significant hsignificant hskip⟩
  · exact ⟨hlength, skipNumber_of_significant hsignificant (by rw [hexponent]; rfl)⟩

/-! ### Values that hold no others -/

theorem value_array {cs tail : List Char} (h : skipSpace cs = '[' :: tail) (fuel depth : Nat) :
    value (fuel + 1) 0 cs = .error .malformed ∧
      value (fuel + 1) (depth + 1) cs =
        items fuel depth true tail >>= fun r => .ok (.array r.1, r.2) := by
  constructor <;> simp [value, h]

theorem value_object {cs tail : List Char} (h : skipSpace cs = '\x7b' :: tail) (fuel depth : Nat) :
    value (fuel + 1) 0 cs = .error .malformed ∧
      value (fuel + 1) (depth + 1) cs =
        members fuel depth true [] tail >>= fun r => .ok (.object r.1, r.2) := by
  constructor <;> simp [value, h]

/-- Where neither an array nor an object begins, depth and fuel do not matter. -/
theorem value_scalar {cs : List Char} (harray : (skipSpace cs).head? ≠ some '[')
    (hobject : (skipSpace cs).head? ≠ some '\x7b') (fuel depth : Nat) :
    value (fuel + 1) depth cs = value 1 0 cs := by
  unfold value
  split
  · rfl
  · rename_i c tail hs
    rw [hs, List.head?_cons, ne_eq, Option.some.injEq] at harray hobject
    simp only [harray, hobject, if_false]

theorem head_ne_of_scalar {cs : List Char} {r : Json × List Char} (h : value 1 0 cs = .ok r) :
    (skipSpace cs).head? ≠ some '[' ∧ (skipSpace cs).head? ≠ some '\x7b' := by
  constructor
  · intro hs
    obtain ⟨tail, hs⟩ := List.head?_eq_some_iff.mp hs
    rw [(value_array hs 0 0).1] at h
    exact absurd h (by simp)
  · intro hs
    obtain ⟨tail, hs⟩ := List.head?_eq_some_iff.mp hs
    rw [(value_object hs 0 0).1] at h
    exact absurd h (by simp)

theorem value_of_scalar {cs : List Char} {r : Json × List Char} (h : value 1 0 cs = .ok r)
    (fuel depth : Nat) : value (fuel + 1) depth cs = .ok r := by
  obtain ⟨harray, hobject⟩ := head_ne_of_scalar h
  rw [value_scalar harray hobject, h]

/-- A value that holds no others, by the character it begins with. -/
inductive Scalar (c : Char) (tail rest : List Char) : Json → Prop
  | null (hc : c = 'n') (h : wordTail ['u', 'l', 'l'] tail = .ok rest) : Scalar c tail rest .null
  | true (hc : c = 't') (h : wordTail ['r', 'u', 'e'] tail = .ok rest) :
      Scalar c tail rest (.bool true)
  | false (hc : c = 'f') (h : wordTail ['a', 'l', 's', 'e'] tail = .ok rest) :
      Scalar c tail rest (.bool false)
  | negative {n : Number} (hc : c = '-') (h : number true tail = .ok (n, rest)) :
      Scalar c tail rest (.number n)
  | number {n : Number} (hc : c.isDigit = true) (h : number false (c :: tail) = .ok (n, rest)) :
      Scalar c tail rest (.number n)
  | string {s : String} (hc : c = '\x22') (h : string tail = .ok (s, rest)) :
      Scalar c tail rest (.string s)

theorem scalar_of_value {cs rest : List Char} {v : Json} (h : value 1 0 cs = .ok (v, rest)) :
    ∃ c tail, skipSpace cs = c :: tail ∧ Scalar c tail rest v := by
  obtain ⟨harray, hobject⟩ := head_ne_of_scalar h
  have made : ∀ {α : Type} {x : Except Fault α} {f : α → Json × List Char},
      (x >>= fun a => .ok (f a)) = .ok (v, rest) → ∃ a, x = .ok a ∧ f a = (v, rest) := by
    intro α x f hx
    obtain ⟨a, ha, hx⟩ := bind_eq_ok.mp hx
    exact ⟨a, ha, Except.ok.inj hx⟩
  unfold value at h
  split at h
  · exact absurd h (by simp)
  · rename_i c tail hs
    refine ⟨c, tail, hs, ?_⟩
    rw [hs, List.head?_cons, ne_eq, Option.some.injEq] at harray hobject
    simp only [harray, hobject, if_false] at h
    split at h
    · rename_i hc
      obtain ⟨_, hword, heq⟩ := made h
      obtain ⟨rfl, rfl⟩ := Prod.mk.inj heq
      exact .null hc hword
    split at h
    · rename_i hc
      obtain ⟨_, hword, heq⟩ := made h
      obtain ⟨rfl, rfl⟩ := Prod.mk.inj heq
      exact .true hc hword
    split at h
    · rename_i hc
      obtain ⟨_, hword, heq⟩ := made h
      obtain ⟨rfl, rfl⟩ := Prod.mk.inj heq
      exact .false hc hword
    split at h
    · rename_i hc
      obtain ⟨⟨n, _⟩, hnumber, heq⟩ := made h
      obtain ⟨rfl, rfl⟩ := Prod.mk.inj heq
      exact .negative hc hnumber
    split at h
    · rename_i hc
      obtain ⟨⟨n, _⟩, hnumber, heq⟩ := made h
      obtain ⟨rfl, rfl⟩ := Prod.mk.inj heq
      exact .number hc hnumber
    split at h
    · rename_i hc
      obtain ⟨⟨s, _⟩, hstring, heq⟩ := made h
      obtain ⟨rfl, rfl⟩ := Prod.mk.inj heq
      exact .string hc hstring
    · exact absurd h (by simp)

/-- Passing over a value that holds no others ends where reading it ends. -/
theorem skip_of_scalar {cs rest : List Char} {v : Json} (h : value 1 0 cs = .ok (v, rest)) :
    rest.length < cs.length ∧ ∀ fuel, skipValue (fuel + 1) cs = .ok rest := by
  obtain ⟨c, tail, hs, hscalar⟩ := scalar_of_value h
  clear h
  have hlt := length_lt_of_skipSpace hs
  have hword : ∀ {ws : List Char}, wordTail ws tail = .ok rest → rest.length ≤ tail.length := by
    intro ws hws
    rw [wordTail_eq_ok hws, List.length_append]
    omega
  cases hscalar with
  | null hc h =>
    have hle := hword h
    exact ⟨by omega, fun _ => by simp [skipValue, hs, hc, h]⟩
  | true hc h =>
    have hle := hword h
    exact ⟨by omega, fun _ => by simp [skipValue, hs, hc, h]⟩
  | false hc h =>
    have hle := hword h
    exact ⟨by omega, fun _ => by simp [skipValue, hs, hc, h]⟩
  | negative hc h =>
    obtain ⟨hle, hskip⟩ := skipNumber_of_number h
    exact ⟨by omega, fun _ => by simp [skipValue, hs, hc, hskip]⟩
  | number hc h =>
    obtain ⟨hle, hskip⟩ := skipNumber_of_number h
    have hspace := length_skipSpace_le cs
    rw [hs] at hspace
    have hne : ∀ x : Char, x.isDigit = Bool.false → c ≠ x := by
      rintro x hx rfl
      rw [hc] at hx
      exact absurd hx (by simp)
    refine ⟨by omega, fun _ => ?_⟩
    simp [skipValue, hs, hne 'n' rfl, hne 't' rfl, hne 'f' rfl, hne '-' rfl, hc, hskip]
  | string hc h =>
    have hle := length_of_string h
    exact ⟨by omega, fun _ => by simp [skipValue, hs, hc, skipString_of_string h]⟩

end Reader

end Json

end Workyard
