import Workyard.Proofs.Decimal.Shortest
import Workyard.Proofs.Json.Significands

/-!
# Written numbers

The text of a number is a numeral, whatever comes after it, and the numeral stands for a number:
an integer for itself, and a binary number for one whose rounding does not go beyond the largest.
-/

namespace Workyard.Json.Reader

set_option autoImplicit false

open Decimal

/-! ### Numerals -/

/-- The digits of the whole part, which has no zero before other digits. -/
structure Whole (ds : List Nat) (n : Nat) : Prop where
  ne_nil : ds ≠ []
  no_zero : ∀ d ds', ds ≠ 0 :: d :: ds'
  value : appendDigits 0 ds = n
  value_lt : n < word

theorem number_of_whole (negative : Bool) {cs tail : List Char} {ds : List Nat} {n : Nat}
    (hrun : digitRun cs = (ds, tail)) (h : Whole ds n) (hpoint : ∀ after, tail ≠ '.' :: after) :
    number negative cs =
      if startsExponent tail then realTail negative ⟨n, 0⟩ tail
      else .ok (integer negative n, tail) := by
  have hwhole := wholeDigits_of_lt 0 (h.value ▸ h.value_lt)
  rw [h.value] at hwhole
  unfold number
  split
  · rename_i heq
    exact absurd (congrArg Prod.fst (hrun.symm.trans heq)) h.ne_nil
  · rename_i heq
    exact absurd (congrArg Prod.fst (hrun.symm.trans heq)) h.ne_nil
  · rename_i heq
    exact absurd (congrArg Prod.fst (hrun.symm.trans heq)) (h.no_zero _ _)
  · rename_i heq
    obtain ⟨rfl, rfl⟩ := Prod.mk.inj (hrun.symm.trans heq)
    simp only [hwhole, Bool.false_or]

theorem number_of_fraction (negative : Bool) {cs after tail : List Char} {ds fs : List Nat} {n : Nat}
    (hrun : digitRun cs = (ds, '.' :: after)) (h : Whole ds n)
    (hplaces : digitRun after = (fs, tail)) (hne : fs ≠ []) :
    number negative cs = realTail negative (fractionDigits fs ⟨n, 0⟩) tail := by
  have hwhole := wholeDigits_of_lt 0 (h.value ▸ h.value_lt)
  rw [h.value] at hwhole
  unfold number
  split
  · rename_i heq
    exact absurd (congrArg Prod.fst (hrun.symm.trans heq)) h.ne_nil
  · rename_i heq
    exact absurd (congrArg Prod.fst (hrun.symm.trans heq)) h.ne_nil
  · rename_i heq
    exact absurd (congrArg Prod.fst (hrun.symm.trans heq)) (h.no_zero _ _)
  · rename_i heq
    obtain ⟨rfl, rfl⟩ := Prod.mk.inj (hrun.symm.trans heq)
    simp only [hwhole]
    split
    · rename_i heq'
      exact absurd (congrArg Prod.fst (hplaces.symm.trans heq')) hne
    · rename_i heq'
      exact absurd (congrArg Prod.fst (hplaces.symm.trans heq')) hne
    · rename_i heq'
      obtain ⟨rfl, rfl⟩ := Prod.mk.inj (hplaces.symm.trans heq')
      rfl

theorem digitValues_ne_nil {cs : List Char} (h : cs ≠ []) : digitValues cs ≠ [] := by
  simpa [digitValues] using h

theorem appendDigits_lt (cs : List Char) (h : ∀ c ∈ cs, c.isDigit = true) (n : Nat) :
    appendDigits n (digitValues cs) < (n + 1) * 10 ^ cs.length := by
  induction cs generalizing n with
  | nil => simp [digitValues, appendDigits]
  | cons c cs ih =>
    have hc : c.toNat - 48 < 10 := by
      have := h c List.mem_cons_self
      simp only [Char.isDigit, Bool.and_eq_true, decide_eq_true_eq] at this
      have hle : c.toNat ≤ 57 := this.2
      omega
    have hrest := ih (fun x hx => h x (List.mem_cons_of_mem c hx)) (n * 10 + (c.toNat - 48))
    calc appendDigits n (digitValues (c :: cs))
        < (n * 10 + (c.toNat - 48) + 1) * 10 ^ cs.length := hrest
      _ ≤ ((n + 1) * 10) * 10 ^ cs.length := Nat.mul_le_mul_right _ (by omega)
      _ = (n + 1) * 10 ^ (c :: cs).length := by
          rw [List.length_cons, Nat.pow_succ]
          ring

/-- Up to nineteen digits that do not begin with zero are a whole part. -/
theorem whole_of_digits {c : Char} {cs : List Char} (h : ∀ x ∈ c :: cs, x.isDigit = true)
    (hc : c.toNat - 48 ≠ 0) (hlength : (c :: cs).length ≤ 19) :
    Whole (digitValues (c :: cs)) (appendDigits 0 (digitValues (c :: cs))) where
  ne_nil := by simp [digitValues]
  no_zero := by
    intro d ds heq
    exact hc (List.cons.inj heq).1
  value := rfl
  value_lt := by
    have hlt := appendDigits_lt (c :: cs) h 0
    have hpow : 10 ^ (c :: cs).length ≤ 10 ^ 19 := Nat.pow_le_pow_right (by decide) hlength
    unfold word
    omega

theorem whole_digitsOf {n : Nat} (h : n < word) : Whole (digitValues (digitsOf n)) n where
  ne_nil := digitValues_ne_nil (digitsOf_ne_nil n)
  no_zero := by
    intro d ds heq
    by_cases hn : n = 0
    · subst hn
      exact absurd (congrArg List.length heq) (by simp [digitValues, digitsOf])
    · obtain ⟨c, cs, hcs, hc⟩ := digitsOf_head hn
      rw [hcs] at heq
      exact hc (List.cons.inj heq).1
  value := appendDigits_digitsOf n
  value_lt := h

/-! ### Exponents -/

/-- The size of an exponent, which is cut off where it is out of all bounds. -/
def exponentSum (i : Int) (ds : List Nat) : Int :=
  ds.foldl (fun (i : Int) (d : Nat) => min exponentLimit (i * 10 + d)) i

theorem exponentSum_bounds (ds : List Nat) {i : Int} {n : Nat} (hnonneg : 0 ≤ i) (hle : i ≤ n) :
    0 ≤ exponentSum i ds ∧ exponentSum i ds ≤ appendDigits n ds := by
  induction ds generalizing i n with
  | nil => exact ⟨hnonneg, hle⟩
  | cons d ds ih =>
    have hlimit : (0 : Int) ≤ exponentLimit := by decide
    have hlow : 0 ≤ min exponentLimit (i * 10 + d) := by omega
    have hhigh : min exponentLimit (i * 10 + d) ≤ (n * 10 + d : ℕ) := by
      push_cast
      omega
    exact ih hlow hhigh

theorem exponentTail_of_run (negative : Bool) {cs tail : List Char} {ds : List Nat}
    (hrun : digitRun cs = (ds, tail)) (hne : ds ≠ []) :
    exponentTail ((if negative then '-' else '+') :: cs) =
      .ok (if negative then -exponentSum 0 ds else exponentSum 0 ds, tail) := by
  cases negative
  all_goals
    simp only [exponentTail, if_true, Bool.false_eq_true, if_false]
    split
    · rename_i heq
      exact absurd (congrArg Prod.fst (hrun.symm.trans heq)) hne
    · rename_i heq
      exact absurd (congrArg Prod.fst (hrun.symm.trans heq)) hne
    · rename_i heq
      obtain ⟨rfl, rfl⟩ := Prod.mk.inj (hrun.symm.trans heq)
      rfl

/-- The exponent with the digits of a number is no larger than the number. -/
theorem exponentTail_digitsOf (lead : Int) :
    ∃ e : Int, (e ≤ 0 ∨ e ≤ lead) ∧ ∀ rest, (∀ c ∈ rest.head?, c.isDigit = false) →
      exponentTail ((if lead < 0 then '-' else '+') :: digitsOf lead.natAbs ++ rest) =
        .ok (e, rest) := by
  obtain ⟨hnonneg, hle⟩ := exponentSum_bounds (digitValues (digitsOf lead.natAbs)) (i := 0) (n := 0)
    (le_refl _) (le_refl _)
  rw [appendDigits_digitsOf] at hle
  refine ⟨if lead < 0 then -exponentSum 0 (digitValues (digitsOf lead.natAbs))
    else exponentSum 0 (digitValues (digitsOf lead.natAbs)), ?_, fun rest hrest => ?_⟩
  · split
    · exact .inl (by omega)
    · exact .inr (by omega)
  · have hrun : digitRun (digitsOf lead.natAbs ++ rest) = _ :=
      digitRun_append (fun c hc => isDigit_of_mem_digitsOf hc) hrest
    have htail := exponentTail_of_run (decide (lead < 0)) hrun
      (digitValues_ne_nil (digitsOf_ne_nil lead.natAbs))
    rw [List.cons_append]
    simpa only [decide_eq_true_eq] using htail

/-! ### The texts of binary numbers -/

/-- A text that reads as a binary number with the significand `s`, whatever comes after it. -/
structure Numeral (text : List Char) (s : Significand) : Prop where
  read : ∀ negative rest, Stops rest →
    number negative (text ++ rest) = real negative s >>= fun n => .ok (n, rest)
  value_lt : s.value < word

theorem Stops.head_isDigit {rest : List Char} (h : Stops rest) :
    ∀ c ∈ rest.head?, c.isDigit = false :=
  fun c hc => (h c hc).1

theorem Stops.startsExponent {rest : List Char} (h : Stops rest) : startsExponent rest = false := by
  cases rest with
  | nil => rfl
  | cons c rest =>
    obtain ⟨-, -, he, hE⟩ := h c rfl
    simp [Reader.startsExponent, he, hE]

theorem realTail_of_stops {negative : Bool} {s : Significand} {rest : List Char} (h : Stops rest) :
    realTail negative s rest = real negative s >>= fun n => .ok (n, rest) := by
  unfold realTail
  rw [if_neg (by simp [h.startsExponent])]

theorem realTail_of_exponent {negative : Bool} {s : Significand} {cs rest : List Char} {e : Int}
    (h : exponentTail cs = .ok (e, rest)) :
    realTail negative s ('e' :: cs) =
      real negative ⟨s.value, s.exponent + e⟩ >>= fun n => .ok (n, rest) := by
  unfold realTail
  rw [if_pos (by rfl)]
  simp [h, Bind.bind, Except.bind]

/-- A whole part and a fraction. -/
theorem numeral_fraction {ws fs : List Char} {n : Nat} (hws : ∀ c ∈ ws, c.isDigit = true)
    (hwhole : Whole (digitValues ws) n) (hfs : ∀ c ∈ fs, c.isDigit = true) (hne : fs ≠ []) :
    Numeral (ws ++ '.' :: fs) (fractionDigits (digitValues fs) ⟨n, 0⟩) ∧
      (fractionDigits (digitValues fs) ⟨n, 0⟩).exponent ≤ 0 := by
  obtain ⟨hlt, hexponent, -⟩ := fractionDigits_spec (digitValues fs) ⟨n, 0⟩ hwhole.value_lt
  refine ⟨⟨fun negative rest hrest => ?_, hlt⟩, hexponent⟩
  rw [List.append_assoc, List.cons_append]
  rw [number_of_fraction negative (digitRun_append hws (by simp)) hwhole
    (digitRun_append hfs hrest.head_isDigit) (digitValues_ne_nil hne)]
  exact realTail_of_stops hrest

/-- The text of an exponent, from its letter on. -/
def exponentText (lead : Int) : List Char :=
  'e' :: (if lead < 0 then '-' else '+') :: digitsOf lead.natAbs

theorem realTail_exponentText (lead : Int) :
    ∃ e : Int, (e ≤ 0 ∨ e ≤ lead) ∧ ∀ negative s rest, Stops rest →
      realTail negative s (exponentText lead ++ rest) =
        real negative ⟨s.value, s.exponent + e⟩ >>= fun n => .ok (n, rest) := by
  obtain ⟨e, he, hread⟩ := exponentTail_digitsOf lead
  exact ⟨e, he, fun negative s rest hrest => realTail_of_exponent (hread rest hrest.head_isDigit)⟩

theorem whole_digit {c : Char} (hc : c.isDigit = true) :
    Whole (digitValues [c]) (c.toNat - 48) where
  ne_nil := by simp [digitValues]
  no_zero := by simp [digitValues]
  value := by simp [digitValues, appendDigits]
  value_lt := by
    have hlt := appendDigits_lt [c] (by simpa using hc) 0
    simp only [digitValues, appendDigits, List.map_cons, List.map_nil, List.foldl_cons,
      List.foldl_nil, List.length_singleton] at hlt
    unfold word
    omega

/-- A digit and an exponent. -/
theorem numeral_exponent {c : Char} (hc : c.isDigit = true) (lead : Int) :
    ∃ e : Int, (e ≤ 0 ∨ e ≤ lead) ∧ Numeral (c :: exponentText lead) ⟨c.toNat - 48, e⟩ := by
  obtain ⟨e, he, htail⟩ := realTail_exponentText lead
  have hwhole := whole_digit hc
  refine ⟨e, he, fun negative rest hrest => ?_, hwhole.value_lt⟩
  have hrun : digitRun ([c] ++ (exponentText lead ++ rest)) =
      (digitValues [c], exponentText lead ++ rest) :=
    digitRun_append (by simpa using hc) (by simp [exponentText])
  have hread := number_of_whole negative hrun hwhole (by simp [exponentText])
  rw [if_pos (by rfl), htail negative _ rest hrest, Int.zero_add] at hread
  exact hread

/-- A digit, a fraction and an exponent. -/
theorem numeral_fraction_exponent {c : Char} {fs : List Char} (hc : c.isDigit = true)
    (hfs : ∀ c ∈ fs, c.isDigit = true) (hne : fs ≠ []) (lead : Int) {s : Significand}
    (hs : s = fractionDigits (digitValues fs) ⟨c.toNat - 48, 0⟩) :
    ∃ e : Int, (e ≤ 0 ∨ e ≤ lead) ∧
      Numeral (c :: '.' :: fs ++ exponentText lead) ⟨s.value, s.exponent + e⟩ := by
  obtain ⟨e, he, htail⟩ := realTail_exponentText lead
  have hwhole := whole_digit hc
  obtain ⟨hlt, -, -⟩ := fractionDigits_spec (digitValues fs) ⟨c.toNat - 48, 0⟩ hwhole.value_lt
  refine ⟨e, he, fun negative rest hrest => ?_, hs ▸ hlt⟩
  have hrun : digitRun ([c] ++ '.' :: (fs ++ (exponentText lead ++ rest))) =
      (digitValues [c], '.' :: (fs ++ (exponentText lead ++ rest))) :=
    digitRun_append (by simpa using hc) (by simp)
  have hplaces : digitRun (fs ++ (exponentText lead ++ rest)) =
      (digitValues fs, exponentText lead ++ rest) :=
    digitRun_append hfs (by simp [exponentText])
  have hread := number_of_fraction negative hrun hwhole hplaces
    (digitValues_ne_nil hne)
  rw [← hs, htail negative _ rest hrest] at hread
  simpa using hread

theorem numeral_positional {d : Digits} (hzero : d.digits = 0 → d = ⟨0, 0⟩)
    (hsign : 0 ≤ d.exponent) (hlead : d.exponent + ((digitsOf d.digits).length : Int) - 1 ≤ 15) :
    ∃ s, Numeral (digitsOf d.digits ++ List.replicate d.exponent.toNat '0' ++ ['.', '0']) s ∧
      s.exponent ≤ 0 := by
  have hdigit : ∀ c ∈ digitsOf d.digits ++ List.replicate d.exponent.toNat '0',
      c.isDigit = true := by
    intro c hc
    rcases List.mem_append.mp hc with hc | hc
    · exact isDigit_of_mem_digitsOf hc
    · rw [List.eq_of_mem_replicate hc]
      rfl
  have hwhole : ∃ n, Whole (digitValues
      (digitsOf d.digits ++ List.replicate d.exponent.toNat '0')) n := by
    by_cases hd : d.digits = 0
    · refine ⟨0, ?_⟩
      rw [hzero hd]
      exact whole_digitsOf (n := 0) (by decide)
    · obtain ⟨c, cs, hcs, hc⟩ := digitsOf_head hd
      rw [hcs, List.cons_append] at hdigit ⊢
      refine ⟨_, whole_of_digits hdigit hc ?_⟩
      rw [hcs, List.length_cons] at hlead
      simp only [List.length_cons, List.length_append, List.length_replicate]
      omega
  obtain ⟨n, hwhole⟩ := hwhole
  have hplaces : ∀ c ∈ ['0'], c.isDigit = true := by simp [Char.isDigit]
  exact ⟨_, numeral_fraction hdigit hwhole hplaces (by simp)⟩

theorem numeral_point {d : Digits} (hzero : d.digits = 0 → d = ⟨0, 0⟩) (hsign : d.exponent < 0)
    (hlead : d.exponent + ((digitsOf d.digits).length : Int) - 1 ≤ 15) {k : Nat} (hpos : 0 < k)
    (hk : k = (digitsOf d.digits).length - (-d.exponent).toNat) :
    ∃ s, Numeral ((digitsOf d.digits).take k ++ '.' :: (digitsOf d.digits).drop k) s ∧
      s.exponent ≤ 0 := by
  have hd : d.digits ≠ 0 := by
    intro hd
    rw [hzero hd] at hsign
    exact absurd hsign (by decide)
  have hdigit : ∀ c ∈ digitsOf d.digits, c.isDigit = true := fun c hc => isDigit_of_mem_digitsOf hc
  have hrest : (digitsOf d.digits).drop k ≠ [] := by
    rw [ne_eq, List.drop_eq_nil_iff]
    omega
  have hwhole : ∃ n, Whole (digitValues ((digitsOf d.digits).take k)) n := by
    obtain ⟨c, cs, hcs, hc⟩ := digitsOf_head hd
    obtain ⟨j, rfl⟩ : ∃ j, k = j + 1 := ⟨k - 1, by omega⟩
    have htake : (digitsOf d.digits).take (j + 1) = c :: cs.take j := by rw [hcs]; rfl
    have hmem : ∀ x ∈ c :: cs.take j, x.isDigit = true := by
      rw [← htake]
      exact fun x hx => hdigit x (List.mem_of_mem_take hx)
    refine ⟨_, htake ▸ whole_of_digits hmem hc ?_⟩
    rw [← htake, List.length_take]
    omega
  obtain ⟨n, hwhole⟩ := hwhole
  exact ⟨_, numeral_fraction (fun c hc => hdigit c (List.mem_of_mem_take hc)) hwhole
    (fun c hc => hdigit c (List.mem_of_mem_drop hc)) hrest⟩

theorem numeral_scientific {d : Digits} {c : Char} {cs : List Char}
    (hds : digitsOf d.digits = c :: cs) {lead : Int} (hlead : lead = d.exponent + cs.length) :
    ∃ s, Numeral ((if cs = [] then [c] else c :: '.' :: cs) ++ exponentText lead) s ∧
      (s.exponent ≤ 0 ∨ s.amount ≤ d.value) := by
  have hdigit : ∀ x ∈ c :: cs, x.isDigit = true := by
    rw [← hds]
    exact fun x hx => isDigit_of_mem_digitsOf hx
  have hc := hdigit c List.mem_cons_self
  have hvalue : appendDigits (c.toNat - 48) (digitValues cs) = d.digits := by
    have hall := appendDigits_digitsOf d.digits
    rw [hds] at hall
    simpa [digitValues, appendDigits] using hall
  by_cases hcs : cs = []
  · subst hcs
    obtain ⟨e, he, hnumeral⟩ := numeral_exponent hc lead
    refine ⟨_, by simpa using hnumeral, ?_⟩
    rcases he with he | he
    · exact .inl he
    · right
      have hsame : c.toNat - 48 = d.digits := hvalue
      unfold Significand.amount Digits.value
      rw [hsame]
      gcongr
      · norm_num
      · simpa [hlead] using he
  · obtain ⟨e, he, hnumeral⟩ := numeral_fraction_exponent hc
      (fun x hx => hdigit x (List.mem_cons_of_mem c hx)) hcs lead rfl
    obtain ⟨-, hexponent, hle⟩ :=
      fractionDigits_spec (digitValues cs) ⟨c.toNat - 48, 0⟩ (whole_digit hc).value_lt
    refine ⟨_, by simpa [hcs] using hnumeral, ?_⟩
    rcases he with he | he
    · exact .inl (by simp only at hexponent ⊢; omega)
    · right
      generalize fractionDigits (digitValues cs) ⟨c.toNat - 48, 0⟩ = s at *
      rw [hvalue] at hle
      have hlength : (digitValues cs).length = cs.length := by simp [digitValues]
      calc Significand.amount ⟨s.value, s.exponent + e⟩
          = s.amount * 10 ^ e := by
            unfold Significand.amount
            rw [zpow_add₀ (by norm_num), mul_assoc]
        _ ≤ d.digits * 10 ^ ((0 : Int) - (digitValues cs).length) * 10 ^ e := by gcongr
        _ ≤ d.digits * 10 ^ ((0 : Int) - (digitValues cs).length) * 10 ^ lead := by
            gcongr
            norm_num
        _ = d.value := by
            unfold Digits.value
            rw [mul_assoc, ← zpow_add₀ (by norm_num), hlead, hlength]
            congr 2
            ring

/-- The text of a decimal is a numeral for no more than its value, unless it is not large. -/
theorem write_numeral {d : Digits} (hzero : d.digits = 0 → d = ⟨0, 0⟩) :
    ∃ s, Numeral (numeralStyle.write d) s ∧ (s.exponent ≤ 0 ∨ s.amount ≤ d.value) := by
  unfold NumeralStyle.write numeralStyle
  simp only
  split
  · rename_i hlead
    simp only [Bool.and_eq_true, decide_eq_true_eq] at hlead
    split
    · rename_i hsign
      obtain ⟨s, hs, hexponent⟩ := numeral_positional hzero hsign hlead.2
      exact ⟨s, hs, .inl hexponent⟩
    · rename_i hsign
      split
      · rename_i hplaces
        obtain ⟨s, hs, hexponent⟩ := numeral_point hzero (by omega) hlead.2 (by omega) rfl
        exact ⟨s, hs, .inl hexponent⟩
      · have hdigit : ∀ c ∈ List.replicate ((-d.exponent).toNat - (digitsOf d.digits).length) '0' ++
            digitsOf d.digits, c.isDigit = true := by
          intro c hc
          rcases List.mem_append.mp hc with hc | hc
          · rw [List.eq_of_mem_replicate hc]
            rfl
          · exact isDigit_of_mem_digitsOf hc
        have hwhole : Whole (digitValues ['0']) 0 := whole_digit rfl
        obtain ⟨hs, hexponent⟩ := numeral_fraction (by simp [Char.isDigit]) hwhole hdigit
          (List.append_ne_nil_of_right_ne_nil _ (digitsOf_ne_nil d.digits))
        exact ⟨_, hs, .inl hexponent⟩
  · obtain ⟨c, cs, hcs⟩ := List.exists_cons_of_ne_nil (digitsOf_ne_nil d.digits)
    have hlead : d.exponent + ((digitsOf d.digits).length : Int) - 1 = d.exponent + cs.length := by
      rw [hcs, List.length_cons]
      push_cast
      ring
    obtain ⟨s, hs, hamount⟩ := numeral_scientific hcs hlead
    refine ⟨s, ?_, hamount⟩
    unfold exponentText at hs
    generalize d.exponent + ((digitsOf d.digits).length : Int) - 1 = lead at *
    rw [hcs]
    cases cs with
    | nil => exact hs
    | cons x xs => exact hs

/-! ### Reading back -/

theorem least_le_greatest : -1074 ≤ (971 : Int) := by decide

theorem greatest_le : (971 : Int) ≤ 971 := Int.le_refl 971

/-- The three largest numbers. -/
def largest (negative : Bool) (k : Fin 3) : Binary64 :=
  ⟨negative, 9007199254740989 + k, 971, by omega, least_le_greatest, greatest_le, .inr (by omega)⟩

theorem eq_largest {x : Binary64} (he : x.exponent = 971) (hm : 9007199254740989 ≤ x.mantissa) :
    ∃ k, x = largest x.negative k := by
  obtain ⟨negative, mantissa, exponent, hlt, _, _, _⟩ := x
  simp only at he hm
  subst he
  refine ⟨⟨mantissa - 9007199254740989, by omega⟩, ?_⟩
  simp only [largest, Binary64.mk.injEq, true_and, and_true]
  omega

def isReal : Except Fault (Number × List Char) → Bool
  | .ok (.real _, _) => true
  | _ => false

/-- There is no room for rounding three times, and it is not needed. -/
theorem isReal_largest : ∀ negative k,
    isReal (number negative (numeralStyle.write (largest negative k).shortest)) = true := by
  decide +kernel

theorem value_le_most {x : Binary64} (h : x.exponent ≠ 971 ∨ x.mantissa < 9007199254740989) :
    ((x.mantissa : ℚ) + 1 / 2) * 2 ^ x.exponent ≤ most := by
  have hunit : (0 : ℚ) < 2 ^ (971 : ℤ) := by positivity
  have hmantissa : (x.mantissa : ℚ) ≤ 9007199254740991 := by
    have := x.mantissa_lt
    exact_mod_cast (by omega : x.mantissa ≤ 9007199254740991)
  have hmost := x.exponent_le
  unfold most
  by_cases he : x.exponent = 971
  · have hlt := h.resolve_left (not_not_intro he)
    have hle : (x.mantissa : ℚ) ≤ 9007199254740988 := by
      exact_mod_cast (by omega : x.mantissa ≤ 9007199254740988)
    rw [he]
    gcongr
    linarith
  · have hdown : (2 : ℚ) ^ x.exponent ≤ 2 ^ ((971 : ℤ) - 1) :=
      zpow_le_zpow_right₀ (by norm_num) (by omega)
    rw [zpow_sub_one₀ (by norm_num)] at hdown
    generalize (2 : ℚ) ^ (971 : ℤ) = unit at *
    calc ((x.mantissa : ℚ) + 1 / 2) * 2 ^ x.exponent
        ≤ (9007199254740991 + 1 / 2) * (unit * 2⁻¹) := by gcongr
      _ ≤ (2 ^ 53 - 7 / 2) * unit := by linarith

/-- The shortest text of a binary number has a number. -/
theorem shortest_numeral (x : Binary64) :
    ∃ s y, Numeral (numeralStyle.write x.shortest) s ∧ real x.negative s = .ok (.real y) := by
  obtain ⟨hvalue, hzero⟩ := x.shortest_spec
  obtain ⟨s, hs, hbound⟩ := write_numeral hzero
  suffices h : ∃ y, real x.negative s = .ok (.real y) by
    obtain ⟨y, hy⟩ := h
    exact ⟨s, y, hs, hy⟩
  by_cases hlarge : x.exponent = 971 ∧ 9007199254740989 ≤ x.mantissa
  · obtain ⟨k, hk⟩ := eq_largest hlarge.1 hlarge.2
    have hchecked := isReal_largest x.negative k
    rw [← hk] at hchecked
    have hread := hs.read x.negative [] (by simp [Stops])
    rw [List.append_nil] at hread
    rw [hread] at hchecked
    cases hreal : real x.negative s with
    | error e => simp [hreal, isReal, Bind.bind, Except.bind] at hchecked
    | ok n =>
      cases n with
      | integer => simp [hreal, isReal, Bind.bind, Except.bind] at hchecked
      | real y => exact ⟨y, rfl⟩
  · refine real_eq_ok x.negative hs.value_lt ?_
    rcases hbound with he | hle
    · exact .inl he
    · refine .inr (hle.trans (hvalue.trans (value_le_most ?_)))
      omega

/-! ### Reading back -/

theorem isDigit_of_number {negative : Bool} {cs rest : List Char} {n : Number}
    (h : number negative cs = .ok (n, rest)) : ∃ c tail, cs = c :: tail ∧ c.isDigit = true := by
  obtain ⟨_, hsignificant, -⟩ := significant_of_number h
  have hne : (digitRun cs).1 ≠ [] := by
    cases hsignificant with
    | whole hne => exact hne
    | fraction hne => exact hne
  cases cs with
  | nil => exact absurd rfl hne
  | cons c tail =>
    refine ⟨c, tail, rfl, ?_⟩
    by_contra hc
    exact hne (by simp [digitRun, hc])

/-- A value may be a number with its sign before it. -/
theorem value_of_number {negative : Bool} {cs rest : List Char} {n : Number}
    (h : number negative cs = .ok (n, rest)) :
    value 1 0 (if negative then '-' :: cs else cs) = .ok (.number n, rest) := by
  cases negative with
  | true =>
    have hspace : skipSpace ('-' :: cs) = '-' :: cs := rfl
    simp [value, hspace, h, Bind.bind, Except.bind]
  | false =>
    obtain ⟨c, tail, rfl, hc⟩ := isDigit_of_number h
    have hne : ∀ x : Char, x.isDigit = false → c ≠ x := by
      rintro x hx rfl
      rw [hc] at hx
      exact absurd hx (by simp)
    have hspace : skipSpace (c :: tail) = c :: tail := by
      refine skipSpace_cons ?_ tail
      simp [isSpace, hne ' ' rfl, hne '\n' rfl, hne '\t' rfl, hne '\r' rfl]
    simp [value, hspace, hc, hne 'n' rfl, hne 't' rfl, hne 'f' rfl, hne '-' rfl, h, Bind.bind,
      Except.bind]

theorem integer_natAbs {i : Int}
    (h : -9223372036854775808 ≤ i ∧ i < 18446744073709551616) :
    integer (decide (i < 0)) i.natAbs = .integer i h := by
  have hsigned : (if decide (i < 0) = true then -(i.natAbs : Int) else (i.natAbs : Int)) = i := by
    simp only [decide_eq_true_eq]
    split <;> omega
  have hzero : ¬ (decide (i < 0) && decide (i.natAbs = 0)) = true := by
    simp only [Bool.and_eq_true, decide_eq_true_eq]
    omega
  unfold integer
  simp only
  rw [if_neg hzero, hsigned, Number.ofInt?_eq_some h]

theorem number_digitsOf {n : Nat} (hn : n < word) (negative : Bool) {rest : List Char}
    (hrest : Stops rest) :
    number negative (digitsOf n ++ rest) = .ok (integer negative n, rest) := by
  have hrun : digitRun (digitsOf n ++ rest) = (digitValues (digitsOf n), rest) :=
    digitRun_append (fun c hc => isDigit_of_mem_digitsOf hc) hrest.head_isDigit
  have hpoint : ∀ after, rest ≠ '.' :: after := by
    rintro after rfl
    exact (hrest '.' rfl).2.1 rfl
  rw [number_of_whole negative hrun (whole_digitsOf hn) hpoint, hrest.startsExponent]
  rfl

/-- The text of a number reads as a number, whatever comes after it. -/
theorem value_chars (n : Number) :
    ∃ m : Number, (∀ rest, Stops rest → value 1 0 (n.chars ++ rest) = .ok (.number m, rest)) ∧
      ∀ i h, n = .integer i h → m = n := by
  cases n with
  | integer i h =>
    refine ⟨.integer i h, fun rest hrest => ?_, fun _ _ _ => rfl⟩
    have hn : i.natAbs < word := by
      unfold word
      omega
    have hread := value_of_number (number_digitsOf hn (decide (i < 0)) hrest)
    rw [integer_natAbs h] at hread
    simp only [Number.chars]
    split
    · rename_i hsign
      simpa [hsign] using hread
    · rename_i hsign
      simpa [hsign] using hread
  | real x =>
    obtain ⟨s, y, hs, hy⟩ := shortest_numeral x
    refine ⟨.real y, fun rest hrest => ?_, fun _ _ h => by simp at h⟩
    have hnumber := hs.read x.negative rest hrest
    rw [hy] at hnumber
    have hread := value_of_number hnumber
    simp only [Number.chars]
    split
    · rename_i hsign
      simpa [hsign] using hread
    · rename_i hsign
      simpa [hsign] using hread

/-! ### The characters of a number -/

/-- The characters that occur in the text of a number. -/
def IsNumeric (c : Char) : Prop :=
  c.isDigit = true ∨ c = '.' ∨ c = 'e' ∨ c = '+' ∨ c = '-'

theorem isNumeric_digitsOf (n : Nat) : ∀ c ∈ digitsOf n, IsNumeric c :=
  fun _ hc => .inl (isDigit_of_mem_digitsOf hc)

theorem isNumeric_zeros (n : Nat) : ∀ c ∈ List.replicate n '0', IsNumeric c :=
  fun _ hc => .inl (List.eq_of_mem_replicate hc ▸ rfl)

theorem isNumeric_write (style : NumeralStyle) (d : Digits) :
    ∀ c ∈ style.write d, IsNumeric c := by
  have hds := isNumeric_digitsOf d.digits
  have hpoint : IsNumeric '.' := .inr (.inl rfl)
  have hzero : IsNumeric '0' := .inl rfl
  unfold NumeralStyle.write
  simp only
  split
  · split
    · simp only [List.forall_mem_append, List.forall_mem_cons]
      exact ⟨⟨hds, isNumeric_zeros _⟩, hpoint, hzero, by simp⟩
    · split
      · simp only [List.forall_mem_append, List.forall_mem_cons]
        exact ⟨fun c hc => hds c (List.mem_of_mem_take hc), hpoint,
          fun c hc => hds c (List.mem_of_mem_drop hc)⟩
      · simp only [List.cons_append, List.forall_mem_append, List.forall_mem_cons]
        exact ⟨hzero, hpoint, isNumeric_zeros _, hds⟩
  · simp only [List.forall_mem_append, List.forall_mem_cons]
    refine ⟨?_, .inr (.inr (.inl rfl)), ?_, isNumeric_digitsOf _⟩
    · split
      · rename_i heq
        exact heq ▸ hds
      · rename_i heq
        rw [heq, List.forall_mem_cons] at hds
        rw [List.forall_mem_cons, List.forall_mem_cons]
        exact ⟨hds.1, hpoint, hds.2⟩
      · simp
    · split
      · exact .inr (.inr (.inr (.inr rfl)))
      · exact .inr (.inr (.inr (.inl rfl)))

theorem isNumeric_chars (n : Number) : ∀ c ∈ n.chars, IsNumeric c := by
  have hminus : IsNumeric '-' := .inr (.inr (.inr (.inr rfl)))
  cases n with
  | integer i h =>
    simp only [Number.chars]
    split
    · rw [List.forall_mem_cons]
      exact ⟨hminus, isNumeric_digitsOf _⟩
    · exact isNumeric_digitsOf _
  | real x =>
    simp only [Number.chars]
    split
    · rw [List.forall_mem_cons]
      exact ⟨hminus, isNumeric_write _ _⟩
    · exact isNumeric_write _ _

theorem chars_ne_nil (n : Number) : n.chars ≠ [] := by
  obtain ⟨m, hread, -⟩ := value_chars n
  intro hnil
  have h := hread [] (by simp [Stops])
  rw [hnil] at h
  simp [value, skipSpace] at h

end Workyard.Json.Reader
