import Workyard.Proofs.Decimal.Rounding

/-!
# Integers are not rounded

A fraction or a decimal that is an integer of at most 53 bits becomes the number that is this integer.
-/

namespace Workyard.Decimal.Binary64

set_option autoImplicit false

variable {negative : Bool} {num den n d : ℕ} {e : ℤ} {x : Binary64}

/-- A number of the format that is an integer. -/
structure Is (negative : Bool) (n : ℕ) (x : Binary64) : Prop where
  negative_eq : x.negative = negative
  magnitude_eq : x.magnitude = n

theorem Is.whole? (h : Is negative n x) : x.whole? = some n := by
  have hden : 0 < x.fraction.2 := by
    unfold fraction
    split
    · exact Nat.one_pos
    · exact Nat.pow_pos (by decide)
  have hcast : (x.fraction.2 : ℚ) ≠ 0 := by exact_mod_cast hden.ne'
  have hratio := fraction_eq_magnitude x
  rw [h.magnitude_eq, div_eq_iff hcast] at hratio
  have hnum : x.fraction.1 = n * x.fraction.2 := by exact_mod_cast hratio
  unfold Binary64.whole?
  simp only [hnum, Nat.mul_mod_left, if_true, Nat.mul_div_cancel _ hden]

theorem is_zero (negative : Bool) : Is negative 0 (zero negative) :=
  ⟨rfl, by simp [magnitude, zero]⟩

/-- The unit of an integer of at most 53 bits is a fraction of one. -/
theorem exponentOf_le_zero (hnum : 0 < num) (hden : 0 < den) (hn : (num : ℚ) / den < 2 ^ 53) :
    exponentOf num den ≤ 0 := by
  obtain ⟨-, -, hlow⟩ := exponentOf_bounds hnum hden
  rcases hlow with hleast | hlow
  · omega
  · by_contra hpos
    have hunit : (2 : ℚ) ^ (1 : ℤ) ≤ 2 ^ exponentOf num den :=
      zpow_le_zpow_right₀ (by norm_num) (by omega)
    norm_num at hunit hn
    linarith

/-- A multiple of the unit is not rounded. -/
theorem scaled_eq {k : ℕ} (hden : 0 < den) (h : (num : ℚ) / den / 2 ^ e = k) : scaled num den e = k := by
  obtain ⟨hle, hge⟩ := scaled_cast num hden e
  rw [h] at hle hge
  apply Nat.le_antisymm
  · have hlt : (scaled num den e : ℚ) < k + 1 := by linarith
    have hlt : scaled num den e < k + 1 := by exact_mod_cast hlt
    omega
  · have hlt : (k : ℚ) < scaled num den e + 1 := by linarith
    have hlt : k < scaled num den e + 1 := by exact_mod_cast hlt
    omega

theorem ofFraction?_is (negative : Bool) (hden : 0 < den) (h : (num : ℚ) / den = n)
    (hn : n < 9007199254740992) : ∃ x, ofFraction? negative num den = some x ∧ Is negative n x := by
  rcases Nat.eq_zero_or_pos num with rfl | hnum
  · have hzero : n = 0 := by
      rw [Nat.cast_zero, zero_div] at h
      exact_mod_cast h.symm
    subst hzero
    exact ⟨zero negative, rfl, is_zero negative⟩
  · have hsmall : (num : ℚ) / den < 2 ^ 53 := by
      rw [h]
      calc (n : ℚ) < (9007199254740992 : ℕ) := by exact_mod_cast hn
        _ = 2 ^ 53 := by norm_num
    have hnonpos := exponentOf_le_zero hnum hden hsmall
    obtain ⟨hleast, hhigh, hlow⟩ := exponentOf_bounds hnum hden
    obtain ⟨hle, hge⟩ := scaled_cast num hden (exponentOf num den)
    have hunits : Units (num / den) (scaled num den (exponentOf num den)) (exponentOf num den) :=
      ⟨hleast, hhigh, hlow, hle, hge⟩
    -- So many units make up one.
    obtain ⟨k, hk⟩ : ∃ k : ℕ, exponentOf num den = -k := ⟨(exponentOf num den).natAbs, by omega⟩
    have hunit : (2 : ℚ) ^ exponentOf num den = (2 ^ k)⁻¹ := by
      rw [hk, zpow_neg, zpow_natCast]
    have hscaled : scaled num den (exponentOf num den) = n * 2 ^ k := by
      apply scaled_eq hden
      rw [h, hunit, div_inv_eq_mul]
      push_cast
      rfl
    have hmantissa : n * 2 ^ k < 9007199254740992 := by
      have hlt := hhigh
      rw [h, hunit, ← div_eq_mul_inv, lt_div_iff₀ (by positivity)] at hlt
      norm_num at hlt
      exact_mod_cast hlt
    have hnormal := hunits.normal
    rw [hscaled] at hnormal
    refine ⟨⟨negative, n * 2 ^ k, exponentOf num den, hmantissa, hleast, by omega, hnormal⟩, ?_, rfl, ?_⟩
    · unfold ofFraction?
      rw [if_neg (by simp [hnum.ne', hden.ne'])]
      simp only [hscaled]
      rw [if_neg hmantissa.ne]
      exact dif_pos ⟨hmantissa, hleast, by omega, hnormal⟩
    · show ((n * 2 ^ k : ℕ) : ℚ) * 2 ^ exponentOf num den = n
      rw [hunit]
      push_cast
      field_simp

/-- A decimal that is so small is no integer. -/
theorem lt_one_of_exponent (he : e < -400 - (d.log2 : ℤ)) : (d : ℚ) * 10 ^ e < 1 := by
  have hdigits : (d : ℚ) < 10 ^ (d.log2 + 1) := by
    calc (d : ℚ) < 2 ^ (d.log2 + 1) := by exact_mod_cast Nat.lt_log2_self
      _ ≤ 10 ^ (d.log2 + 1) := by gcongr; norm_num
  have hpower : (10 : ℚ) ^ e ≤ 10 ^ (-((d.log2 + 1 : ℕ) : ℤ)) :=
    zpow_le_zpow_right₀ (by norm_num) (by push_cast; omega)
  have hinverse : (10 : ℚ) ^ (d.log2 + 1) * 10 ^ (-((d.log2 + 1 : ℕ) : ℤ)) = 1 := by
    rw [← zpow_natCast, ← zpow_add₀ (by norm_num), add_neg_cancel, zpow_zero]
  calc (d : ℚ) * 10 ^ e ≤ d * 10 ^ (-((d.log2 + 1 : ℕ) : ℤ)) := by gcongr
    _ < 10 ^ (d.log2 + 1) * 10 ^ (-((d.log2 + 1 : ℕ) : ℤ)) := by gcongr
    _ = 1 := hinverse

theorem ofDecimal?_is (negative : Bool) (h : (d : ℚ) * 10 ^ e = n) (hn : n < 9007199254740992) :
    ∃ x, ofDecimal? negative d e = some x ∧ Is negative n x := by
  unfold ofDecimal?
  rcases Nat.eq_zero_or_pos d with rfl | hd
  · rw [if_pos rfl]
    rw [Nat.cast_zero, zero_mul] at h
    obtain rfl : n = 0 := by exact_mod_cast h.symm
    exact ⟨zero negative, rfl, is_zero negative⟩
  · have hpos : 0 < n := by
      have hmul : (0 : ℚ) < d * 10 ^ e := by positivity
      rw [h] at hmul
      exact_mod_cast hmul
    have hlarge : ¬ 400 < e := by
      intro he
      have hone : (1 : ℚ) ≤ d := by exact_mod_cast hd
      have hten : (10 : ℚ) ^ (16 : ℤ) ≤ 10 ^ e := zpow_le_zpow_right₀ (by norm_num) (by omega)
      have hle : (10 : ℚ) ^ (16 : ℤ) ≤ n := by
        calc (10 : ℚ) ^ (16 : ℤ) ≤ 1 * 10 ^ e := by rwa [one_mul]
          _ ≤ d * 10 ^ e := by gcongr
          _ = n := h
      have hlt : (n : ℚ) < (9007199254740992 : ℕ) := by exact_mod_cast hn
      norm_num at hle hlt
      linarith
    have hsmall : ¬ e < -400 - (d.log2 : ℤ) := by
      intro he
      have hlt := lt_one_of_exponent he
      rw [h] at hlt
      have hlt : n < 1 := by exact_mod_cast hlt
      omega
    rw [if_neg hd.ne', if_neg hlarge, if_neg hsmall]
    split
    · rename_i he
      apply ofFraction?_is negative Nat.one_pos _ hn
      rw [← h, ← Int.toNat_of_nonneg he, zpow_natCast, Int.toNat_natCast]
      simp
    · rename_i he
      obtain ⟨k, rfl⟩ : ∃ k : ℕ, e = -k := ⟨e.natAbs, by omega⟩
      apply ofFraction?_is negative (Nat.pow_pos (by decide)) _ hn
      rw [← h, neg_neg, Int.toNat_natCast, zpow_neg, zpow_natCast, div_eq_mul_inv]
      push_cast
      rfl

end Workyard.Decimal.Binary64
