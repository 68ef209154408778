import Mathlib.Algebra.Order.Field.Power
import Mathlib.Data.Rat.Cast.Order
import Mathlib.Tactic.FieldSimp
import Mathlib.Tactic.Linarith
import Mathlib.Tactic.NormNum
import Mathlib.Tactic.Positivity
import Mathlib.Tactic.Ring
import Workyard.Decimal.Binary64

/-!
# Rounding a fraction

A fraction has a nearest number of the format as long as it lies below the middle between the
largest number and the next one there would be. The number is then larger than the fraction by
half a unit in its last place at most.
-/

namespace Workyard.Decimal.Binary64

set_option autoImplicit false

/-- The number without its sign. -/
def magnitude (x : Binary64) : ℚ :=
  x.mantissa * 2 ^ x.exponent

/-- The middle between the largest number and the one that would come next. -/
def limit : ℚ :=
  (2 ^ 53 - 1 / 2) * 2 ^ (971 : ℤ)

theorem magnitude_nonneg (x : Binary64) : 0 ≤ x.magnitude := by
  unfold magnitude
  positivity

theorem two_zpow_eq (e : ℤ) : (2 : ℚ) ^ e = if 0 ≤ e then 2 ^ e.toNat else (2 ^ (-e).toNat)⁻¹ := by
  split
  · rename_i h
    rw [← zpow_natCast, Int.toNat_of_nonneg h]
  · rw [← zpow_natCast, Int.toNat_of_nonneg (by omega), zpow_neg, inv_inv]

theorem fraction_eq_magnitude (x : Binary64) :
    (x.fraction.1 : ℚ) / x.fraction.2 = x.magnitude := by
  unfold fraction magnitude
  rw [two_zpow_eq]
  split
  · simp
  · simp [div_eq_mul_inv]

/-! ### To integers -/

theorem roundDiv_bounds (num : ℕ) {den : ℕ} (h : 0 < den) :
    2 * (den * roundDiv num den) ≤ 2 * num + den ∧
      2 * num ≤ 2 * (den * roundDiv num den) + den := by
  have hdiv := Nat.div_add_mod num den
  have hlt := Nat.mod_lt num h
  generalize hq : num / den = q at *
  generalize hr : num % den = r at *
  have hsucc : den * (q + 1) = den * q + den := by ring
  unfold roundDiv
  rw [hq, hr]
  simp only
  split
  · omega
  · split
    · omega
    · split
      · omega
      · omega

theorem roundDiv_cast (num : ℕ) {den : ℕ} (h : 0 < den) :
    (roundDiv num den : ℚ) ≤ num / den + 1 / 2 ∧ (num : ℚ) / den - 1 / 2 ≤ roundDiv num den := by
  have hden : (0 : ℚ) < den := by exact_mod_cast h
  obtain ⟨hle, hge⟩ := roundDiv_bounds num h
  have hle' : (2 * (den * roundDiv num den) : ℚ) ≤ 2 * num + den := by exact_mod_cast hle
  have hge' : (2 * num : ℚ) ≤ 2 * (den * roundDiv num den) + den := by exact_mod_cast hge
  constructor
  · rw [div_add' _ _ _ hden.ne', le_div_iff₀ hden]
    linarith
  · rw [div_sub' hden.ne', div_le_iff₀ hden]
    linarith

theorem scaled_cast (num : ℕ) {den : ℕ} (h : 0 < den) (e : ℤ) :
    (scaled num den e : ℚ) ≤ num / den / 2 ^ e + 1 / 2 ∧
      (num : ℚ) / den / 2 ^ e - 1 / 2 ≤ scaled num den e := by
  unfold scaled
  rw [two_zpow_eq]
  split
  · have hpos : 0 < den * Nat.pow 2 e.toNat := Nat.mul_pos h (Nat.pow_pos (by decide))
    have hcast := roundDiv_cast num hpos
    simpa [div_div] using hcast
  · have hcast := roundDiv_cast (num * Nat.pow 2 (-e).toNat) h
    have hfrac : ((num * Nat.pow 2 (-e).toNat : ℕ) : ℚ) / den =
        num / den / (2 ^ (-e).toNat)⁻¹ := by
      push_cast
      field_simp
      simp
    rw [hfrac] at hcast
    exact hcast

/-! ### The exponent -/

theorem log2_cast {n : ℕ} (h : 0 < n) : (2 : ℚ) ^ n.log2 ≤ n ∧ (n : ℚ) < 2 ^ (n.log2 + 1) := by
  constructor
  · exact_mod_cast Nat.log2_self_le h.ne'
  · exact_mod_cast Nat.lt_log2_self

theorem ratio_bounds {num den : ℕ} (hnum : 0 < num) (hden : 0 < den) :
    (2 : ℚ) ^ ((num.log2 : ℤ) - den.log2 - 1) < num / den ∧
      (num : ℚ) / den < 2 ^ ((num.log2 : ℤ) - den.log2 + 1) := by
  have hpos : (0 : ℚ) < den := by exact_mod_cast hden
  obtain ⟨hnumLow, hnumHigh⟩ := log2_cast hnum
  obtain ⟨hdenLow, hdenHigh⟩ := log2_cast hden
  have htwo : (2 : ℚ) ≠ 0 := by norm_num
  constructor
  · rw [lt_div_iff₀ hpos]
    calc (2 : ℚ) ^ ((num.log2 : ℤ) - den.log2 - 1) * den
        < 2 ^ ((num.log2 : ℤ) - den.log2 - 1) * 2 ^ (den.log2 + 1) := by gcongr
      _ = 2 ^ num.log2 := by
          rw [← zpow_natCast, ← zpow_natCast, ← zpow_add₀ htwo]
          congr 1
          push_cast
          ring
      _ ≤ num := hnumLow
  · rw [div_lt_iff₀ hpos]
    calc (num : ℚ) < 2 ^ (num.log2 + 1) := hnumHigh
      _ = 2 ^ ((num.log2 : ℤ) - den.log2 + 1) * 2 ^ den.log2 := by
          rw [← zpow_natCast, ← zpow_natCast, ← zpow_add₀ htwo]
          congr 1
          push_cast
          ring
      _ ≤ 2 ^ ((num.log2 : ℤ) - den.log2 + 1) * den := by gcongr

/-- The test by which the guess is lowered. -/
theorem lt_guess_iff (num : ℕ) {den : ℕ} (hden : 0 < den) (guess : ℤ) :
    (if 0 ≤ guess then decide (num < den * Nat.pow 2 (guess.toNat + 52))
      else decide (num * Nat.pow 2 (-guess).toNat < den * 4503599627370496)) = true ↔
      (num : ℚ) / den < 2 ^ 52 * 2 ^ guess := by
  have hpos : (0 : ℚ) < den := by exact_mod_cast hden
  rw [two_zpow_eq, div_lt_iff₀ hpos]
  split
  · rw [decide_eq_true_eq, ← Nat.cast_lt (α := ℚ), Nat.pow_eq]
    push_cast
    rw [pow_add, mul_comm (den : ℚ), mul_comm ((2 : ℚ) ^ guess.toNat)]
  · have hpow : (0 : ℚ) < 2 ^ (-guess).toNat := by positivity
    rw [decide_eq_true_eq, ← Nat.cast_lt (α := ℚ)]
    push_cast
    rw [mul_assoc, inv_mul_eq_div, ← mul_div_assoc, lt_div_iff₀ hpow]
    norm_num [mul_comm]

theorem exponentOf_bounds {num den : ℕ} (hnum : 0 < num) (hden : 0 < den) :
    -1074 ≤ exponentOf num den ∧ (num : ℚ) / den < 2 ^ 53 * 2 ^ exponentOf num den ∧
      (exponentOf num den = -1074 ∨ (2 : ℚ) ^ 52 * 2 ^ exponentOf num den ≤ num / den) := by
  have htwo : (2 : ℚ) ≠ 0 := by norm_num
  obtain ⟨hlow, hhigh⟩ := ratio_bounds hnum hden
  generalize hguess : (num.log2 : ℤ) - den.log2 - 52 = guess
  have hlow' : (2 : ℚ) ^ 52 * 2 ^ (guess - 1) < num / den := by
    rw [← zpow_natCast, ← zpow_add₀ htwo]
    convert hlow using 2
    push_cast
    omega
  have hhigh' : (num : ℚ) / den < 2 ^ 53 * 2 ^ guess := by
    rw [← zpow_natCast, ← zpow_add₀ htwo]
    convert hhigh using 2
    push_cast
    omega
  have hdown : (2 : ℚ) ^ 53 * 2 ^ (guess - 1) = 2 ^ 52 * 2 ^ guess := by
    rw [zpow_sub_one₀ htwo]
    ring
  -- The unrounded exponent, before it is raised to the least one.
  obtain ⟨raw, hraw, hrawHigh, hrawLow⟩ :
      ∃ raw, exponentOf num den = max (-1074) raw ∧ (num : ℚ) / den < 2 ^ 53 * 2 ^ raw ∧
        (2 : ℚ) ^ 52 * 2 ^ raw ≤ num / den := by
    have htest := lt_guess_iff num hden guess
    unfold exponentOf
    simp only [hguess]
    split at htest <;> rename_i hsign <;> simp only [hsign, if_true, if_false] <;> split
    · rename_i hsmall
      exact ⟨guess - 1, rfl, hdown ▸ htest.mp hsmall, hlow'.le⟩
    · rename_i hsmall
      exact ⟨guess, rfl, hhigh', not_lt.mp fun h => hsmall (htest.mpr h)⟩
    · rename_i hsmall
      exact ⟨guess - 1, rfl, hdown ▸ htest.mp hsmall, hlow'.le⟩
    · rename_i hsmall
      exact ⟨guess, rfl, hhigh', not_lt.mp fun h => hsmall (htest.mpr h)⟩
  rw [hraw]
  refine ⟨le_max_left _ _, ?_, ?_⟩
  · calc (num : ℚ) / den < 2 ^ 53 * 2 ^ raw := hrawHigh
      _ ≤ 2 ^ 53 * 2 ^ max (-1074) raw := by
        gcongr
        · norm_num
        · exact le_max_right _ _
  · rcases le_total raw (-1074) with h | h
    · exact .inl (max_eq_left h)
    · rw [max_eq_right h]
      exact .inr hrawLow

/-! ### The nearest number -/

/-- A rounded fraction: at most half a unit above it, and not below one if the fraction is not. -/
structure Rounds (v : ℚ) (y : Binary64) : Prop where
  le : y.magnitude ≤ v * (1 + 1 / 2 ^ 53) + 2 ^ (-1075 : ℤ)
  one_le : 1 ≤ v → 1 ≤ y.magnitude

theorem ofParts?_eq_some (negative : Bool) {m : ℕ} {e : ℤ} (hm : m < 9007199254740992)
    (hleast : -1074 ≤ e) (hmost : e ≤ 971) (hnormal : e = -1074 ∨ 4503599627370496 ≤ m) :
    ∃ y, ofParts? negative m e = some y ∧ y.magnitude = m * 2 ^ e :=
  ⟨⟨negative, m, e, hm, hleast, hmost, hnormal⟩, dif_pos ⟨hm, hleast, hmost, hnormal⟩, rfl⟩

/-- A fraction `v` that is rounded to `m` units of `2 ^ e`. -/
structure Units (v : ℚ) (m : ℕ) (e : ℤ) : Prop where
  least : -1074 ≤ e
  lt : v < 2 ^ 53 * 2 ^ e
  ge : e = -1074 ∨ (2 : ℚ) ^ 52 * 2 ^ e ≤ v
  le_add : (m : ℚ) ≤ v / 2 ^ e + 1 / 2
  sub_le : v / 2 ^ e - 1 / 2 ≤ m

namespace Units

variable {v : ℚ} {m : ℕ} {e : ℤ}

theorem mul_le (h : Units v m e) (hv : 0 ≤ v) :
    (m : ℚ) * 2 ^ e ≤ v * (1 + 1 / 2 ^ 53) + 2 ^ (-1075 : ℤ) := by
  have hunit : (0 : ℚ) < 2 ^ e := by positivity
  have hhalf : (2 : ℚ) ^ e / 2 ≤ v / 2 ^ 53 + 2 ^ (-1075 : ℤ) := by
    rcases h.ge with rfl | hge
    · have hless : (2 : ℚ) ^ (-1074 : ℤ) / 2 = 2 ^ (-1075 : ℤ) := by
        rw [div_eq_mul_inv, ← zpow_sub_one₀ (by norm_num)]
        norm_num
      rw [hless]
      have : 0 ≤ v / 2 ^ 53 := by positivity
      linarith
    · have : (0 : ℚ) ≤ 2 ^ (-1075 : ℤ) := by positivity
      rw [← le_div_iff₀' (by positivity)] at hge
      linarith
  have hmul : (m : ℚ) * 2 ^ e ≤ v + 2 ^ e / 2 := by
    have := mul_le_mul_of_nonneg_right h.le_add hunit.le
    rw [add_mul, div_mul_cancel₀ _ hunit.ne'] at this
    linarith
  linarith

theorem normal (h : Units v m e) : e = -1074 ∨ 4503599627370496 ≤ m := by
  rcases h.ge with he | hge
  · exact .inl he
  · right
    have hunit : (0 : ℚ) < 2 ^ e := by positivity
    rw [← le_div_iff₀ hunit] at hge
    have hsub := h.sub_le
    have hm : (4503599627370495 : ℚ) < m := by linarith
    have : 4503599627370495 < m := by exact_mod_cast hm
    omega

theorem le_two_pow (h : Units v m e) : m ≤ 9007199254740992 := by
  have hunit : (0 : ℚ) < 2 ^ e := by positivity
  have hlt := h.lt
  rw [← div_lt_iff₀ hunit] at hlt
  have hle := h.le_add
  have hm : (m : ℚ) < 9007199254740993 := by linarith
  have : m < 9007199254740993 := by exact_mod_cast hm
  omega

theorem exponent_le (h : Units v m e) (hlimit : v < limit) : e ≤ 971 := by
  by_contra hgt
  have hge : (2 : ℚ) ^ 52 * 2 ^ e ≤ v := by
    rcases h.ge with he | hge
    · omega
    · exact hge
  have hstep : (2 : ℚ) ^ ((971 : ℤ) + 1) ≤ 2 ^ e := zpow_le_zpow_right₀ (by norm_num) (by omega)
  have hunit : (0 : ℚ) < 2 ^ (971 : ℤ) := by positivity
  rw [zpow_add_one₀ (by norm_num)] at hstep
  unfold limit at hlimit
  generalize (2 : ℚ) ^ (971 : ℤ) = unit at *
  linarith

/-- The mantissa is rounded up to the next power of two only below the largest exponent. -/
theorem exponent_lt (h : Units v m e) (hlimit : v < limit) (hm : m = 9007199254740992) :
    e < 971 := by
  by_contra hge
  have he : e = 971 := by
    have := h.exponent_le hlimit
    omega
  subst he
  have hunit : (0 : ℚ) < 2 ^ (971 : ℤ) := by positivity
  have hle := h.le_add
  rw [hm] at hle
  unfold limit at hlimit
  generalize (2 : ℚ) ^ (971 : ℤ) = unit at *
  have hquot : (2 : ℚ) ^ 53 - 1 / 2 ≤ v / unit := by
    push_cast at hle
    linarith
  rw [le_div_iff₀ hunit] at hquot
  exact absurd hlimit (not_lt.mpr hquot)

theorem one_le (h : Units v m e) (hv : 1 ≤ v) : 1 ≤ (m : ℚ) * 2 ^ e := by
  have he : -52 ≤ e := by
    by_contra hlt
    have hstep : (2 : ℚ) ^ e ≤ 2 ^ (-53 : ℤ) := zpow_le_zpow_right₀ (by norm_num) (by omega)
    have hlt := h.lt
    norm_num at hstep
    linarith
  have hm : 4503599627370496 ≤ m := by
    rcases h.normal with he' | hm
    · omega
    · exact hm
  have hm' : (4503599627370496 : ℚ) ≤ m := by exact_mod_cast hm
  have hunit : (2 : ℚ) ^ (-52 : ℤ) ≤ 2 ^ e := zpow_le_zpow_right₀ (by norm_num) he
  calc (1 : ℚ) = 4503599627370496 * 2 ^ (-52 : ℤ) := by norm_num
    _ ≤ m * 2 ^ e := by gcongr

end Units

theorem ofFraction?_eq_some (negative : Bool) {num den : ℕ} (h : (num : ℚ) / den < limit) :
    ∃ y, ofFraction? negative num den = some y ∧ Rounds (num / den) y := by
  unfold ofFraction?
  split
  · rename_i hzero
    have hv : (num : ℚ) / den = 0 := by
      simp only [Bool.or_eq_true, decide_eq_true_eq] at hzero
      rcases hzero with rfl | rfl <;> simp
    rw [hv]
    refine ⟨zero negative, rfl, ?_, ?_⟩
    · simp [magnitude, zero]
    · intro hone
      norm_num at hone
  · rename_i hzero
    simp only [Bool.or_eq_true, decide_eq_true_eq, not_or] at hzero
    have hnum := Nat.pos_of_ne_zero hzero.1
    have hden := Nat.pos_of_ne_zero hzero.2
    have hv : (0 : ℚ) ≤ num / den := by positivity
    obtain ⟨hleast, hhigh, hlow⟩ := exponentOf_bounds hnum hden
    obtain ⟨hle, hge⟩ := scaled_cast num hden (exponentOf num den)
    have hunits : Units (num / den) (scaled num den (exponentOf num den)) (exponentOf num den) :=
      ⟨hleast, hhigh, hlow, hle, hge⟩
    simp only
    split
    · rename_i hm
      have he := hunits.exponent_lt h hm
      obtain ⟨y, hy, hmagnitude⟩ := ofParts?_eq_some negative (m := 4503599627370496)
        (e := exponentOf num den + 1) (by decide) (by omega) (by omega) (.inr (Nat.le_refl _))
      have hsame : y.magnitude =
          scaled num den (exponentOf num den) * 2 ^ exponentOf num den := by
        rw [hmagnitude, hm, zpow_add_one₀ (by norm_num)]
        push_cast
        ring
      exact ⟨y, hy, hsame ▸ hunits.mul_le hv, fun hone => hsame ▸ hunits.one_le hone⟩
    · rename_i hm
      have hlt := hunits.le_two_pow
      obtain ⟨y, hy, hmagnitude⟩ := ofParts?_eq_some negative (by omega) hunits.least
        (hunits.exponent_le h) hunits.normal
      exact ⟨y, hy, hmagnitude ▸ hunits.mul_le hv, fun hone => hmagnitude ▸ hunits.one_le hone⟩

/-! ### Scaling -/

theorem scale?_mul (x y : Binary64) (h : x.magnitude * y.magnitude < limit) :
    ∃ z, x.scale? y false = some z ∧ Rounds (x.magnitude * y.magnitude) z := by
  have hratio : ((x.fraction.1 * y.fraction.1 : ℕ) : ℚ) / (x.fraction.2 * y.fraction.2 : ℕ) =
      x.magnitude * y.magnitude := by
    rw [← fraction_eq_magnitude, ← fraction_eq_magnitude]
    push_cast
    rw [div_mul_div_comm]
  rw [← hratio] at h ⊢
  exact ofFraction?_eq_some _ h

theorem scale?_div (x y : Binary64) (h : x.magnitude / y.magnitude < limit) :
    ∃ z, x.scale? y true = some z ∧ Rounds (x.magnitude / y.magnitude) z := by
  have hratio : ((x.fraction.1 * y.fraction.2 : ℕ) : ℚ) / (x.fraction.2 * y.fraction.1 : ℕ) =
      x.magnitude / y.magnitude := by
    rw [← fraction_eq_magnitude, ← fraction_eq_magnitude]
    push_cast
    rw [div_div_div_eq]
  rw [← hratio] at h ⊢
  exact ofFraction?_eq_some _ h

theorem two_pow_lt_limit : (2 : ℚ) ^ 100 < limit := by
  have hunit : (2 : ℚ) ^ (100 : ℤ) ≤ 2 ^ (971 : ℤ) := zpow_le_zpow_right₀ (by norm_num) (by norm_num)
  have hpos : (0 : ℚ) < 2 ^ (971 : ℤ) := by positivity
  unfold limit
  generalize (2 : ℚ) ^ (971 : ℤ) = unit at *
  norm_num at hunit ⊢
  linarith

theorem greatest_lt_limit : (10 : ℚ) ^ 308 < limit := by
  have hnat : 10 ^ 308 * 2 < (2 ^ 54 - 1) * 2 ^ 971 := by decide +kernel
  have hcast : ((10 ^ 308 * 2 : ℕ) : ℚ) < ((2 ^ 54 - 1) * 2 ^ 971 : ℕ) := by exact_mod_cast hnat
  rw [Nat.cast_mul, Nat.cast_mul, Nat.cast_pow, Nat.cast_pow] at hcast
  have hunit : (2 : ℚ) ^ (971 : ℤ) = ((2 : ℕ) : ℚ) ^ 971 := by
    rw [← zpow_natCast]
    rfl
  unfold limit
  rw [hunit]
  generalize ((2 : ℕ) : ℚ) ^ 971 = unit at *
  generalize (10 : ℚ) ^ 308 = power at *
  norm_num at hcast
  linarith

/-- The powers of ten up to the greatest that is a factor. -/
theorem ofDecimal?_ten_pow {k : ℕ} (hk : k ≤ 308) :
    ∃ y, ofDecimal? false 1 k = some y ∧ Rounds (10 ^ k) y := by
  have hlimit : ((1 * Nat.pow 10 k : ℕ) : ℚ) / (1 : ℕ) < limit := by
    have hpow : (10 : ℚ) ^ k ≤ 10 ^ 308 := pow_le_pow_right₀ (by norm_num) hk
    rw [one_mul, Nat.cast_one, div_one, Nat.pow_eq]
    push_cast
    exact lt_of_le_of_lt hpow greatest_lt_limit
  obtain ⟨y, hy, hrounds⟩ := ofFraction?_eq_some false hlimit
  refine ⟨y, ?_, ?_⟩
  · unfold ofDecimal?
    rw [if_neg (by decide), if_neg (by omega), if_neg (by omega), if_pos (by omega)]
    simpa using hy
  · simpa using hrounds

end Workyard.Decimal.Binary64
