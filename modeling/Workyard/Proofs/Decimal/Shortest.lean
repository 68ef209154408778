import Workyard.Decimal.Shortest
import Workyard.Proofs.Decimal.Rounding

/-!
# Shortest digits

The shortest decimal of a number lies in the interval of what rounds to it, so that it exceeds the
number by half a unit in its last place at most.
-/

namespace Workyard.Decimal

set_option autoImplicit false

/-- The value of a decimal. -/
def Digits.value (d : Digits) : ℚ :=
  d.digits * 10 ^ d.exponent

namespace Binary64

variable {x : Binary64} {d : Digits}

/-- The upper end of the interval, over its denominator. -/
theorem interval_high (x : Binary64) :
    0 < x.interval.2 ∧
      (x.interval.1.2.2 : ℚ) / x.interval.2 = (x.mantissa + 1 / 2) * 2 ^ x.exponent := by
  have hquarter : (2 : ℚ) ^ x.exponent = 4 * 2 ^ (x.exponent - 2) := by
    rw [show x.exponent = 2 + (x.exponent - 2) by ring, zpow_add₀ (by norm_num)]
    norm_num
  have hhigh : (if x.mantissa = 4503599627370496 ∧ x.exponent ≠ -1074 then
      (4 * x.mantissa - 1, 4 * x.mantissa, 4 * x.mantissa + 2)
    else (4 * x.mantissa - 2, 4 * x.mantissa, 4 * x.mantissa + 2)).2.2 = 4 * x.mantissa + 2 := by
    split <;> rfl
  unfold interval
  simp only [hhigh]
  rw [hquarter, two_zpow_eq]
  split
  · refine ⟨Nat.one_pos, ?_⟩
    simp only [Nat.pow_eq]
    push_cast
    ring
  · refine ⟨Nat.pow_pos (by decide), ?_⟩
    simp only [Nat.pow_eq]
    push_cast
    ring

theorem ten_zpow_eq (e : ℤ) :
    (10 : ℚ) ^ e = if 0 ≤ e then 10 ^ e.toNat else (10 ^ (-e).toNat)⁻¹ := by
  split
  · rename_i h
    rw [← zpow_natCast, Int.toNat_of_nonneg h]
  · rw [← zpow_natCast, Int.toNat_of_nonneg (by omega), zpow_neg, inv_inv]

theorem value_le_of_admits (h : x.admits d = true) :
    d.value ≤ (x.mantissa + 1 / 2) * 2 ^ x.exponent := by
  obtain ⟨hden, hhigh⟩ := interval_high x
  have hden' : (0 : ℚ) < x.interval.2 := by exact_mod_cast hden
  -- Between the ends, whether they belong to the interval or not.
  have hle : ∀ a b : ℕ, (if x.mantissa % 2 = 0 then
        x.interval.1.1 * b ≤ a * x.interval.2 && a * x.interval.2 ≤ x.interval.1.2.2 * b
      else x.interval.1.1 * b < a * x.interval.2 && a * x.interval.2 < x.interval.1.2.2 * b :
        Bool) = true → 0 < b → (a : ℚ) / b ≤ (x.mantissa + 1 / 2) * 2 ^ x.exponent := by
    intro a b hbetween hb
    have hb' : (0 : ℚ) < b := by exact_mod_cast hb
    rw [← hhigh, div_le_div_iff₀ hb' hden']
    split at hbetween
    · simp only [Bool.and_eq_true, decide_eq_true_eq] at hbetween
      exact_mod_cast hbetween.2
    · simp only [Bool.and_eq_true, decide_eq_true_eq] at hbetween
      exact_mod_cast hbetween.2.le
  unfold admits at h
  unfold Digits.value
  rw [ten_zpow_eq]
  simp only at h
  split
  · rename_i hsign
    simp only [hsign, if_true] at h
    have := hle _ _ h Nat.one_pos
    simpa using this
  · rename_i hsign
    simp only [hsign, if_false] at h
    have := hle _ _ h (Nat.pow_pos (by decide))
    simpa [div_eq_mul_inv] using this

theorem admits_of_onGrid? {exponent : ℤ} (h : x.onGrid? exponent = some d) :
    x.admits d = true ∧ d.digits ≠ 0 := by
  have choice : ∀ (first : Bool) (below above : Digits), above.digits ≠ 0 →
      (if first then
        if below.digits != 0 && x.admits below then some below
        else if x.admits above then some above else none
      else
        if x.admits above then some above
        else if below.digits != 0 && x.admits below then some below else none) = some d →
      x.admits d = true ∧ d.digits ≠ 0 := by
    intro first below above habove hchoice
    have hbelow : (below.digits != 0 && x.admits below) = true → some below = some d →
        x.admits d = true ∧ d.digits ≠ 0 := by
      intro hb heq
      simp only [Bool.and_eq_true, bne_iff_ne] at hb
      obtain rfl := Option.some.inj heq
      exact ⟨hb.2, hb.1⟩
    have hupper : x.admits above = true → some above = some d →
        x.admits d = true ∧ d.digits ≠ 0 := by
      intro ha heq
      obtain rfl := Option.some.inj heq
      exact ⟨ha, habove⟩
    split at hchoice
    · split at hchoice
      · exact hbelow ‹_› hchoice
      · split at hchoice
        · exact hupper ‹_› hchoice
        · exact absurd hchoice (by simp)
    · split at hchoice
      · exact hupper ‹_› hchoice
      · split at hchoice
        · exact hbelow ‹_› hchoice
        · exact absurd hchoice (by simp)
  exact choice _ _ _ (Nat.succ_ne_zero _) h

theorem admits_of_shortestFrom {steps : ℕ} {exponent : ℤ}
    (h : x.shortestFrom steps exponent = some d) : x.admits d = true ∧ d.digits ≠ 0 := by
  induction steps generalizing exponent with
  | zero => exact absurd h (by simp [shortestFrom])
  | succ steps ih =>
    unfold shortestFrom at h
    split at h
    · rename_i found hgrid
      obtain rfl := Option.some.inj h
      exact admits_of_onGrid? hgrid
    · exact ih h

/-- The shortest decimal stays within half a unit of the number, and is zero with exponent zero if
it is zero at all. -/
theorem shortest_spec (x : Binary64) :
    x.shortest.value ≤ (x.mantissa + 1 / 2) * 2 ^ x.exponent ∧
      (x.shortest.digits = 0 → x.shortest = ⟨0, 0⟩) := by
  have hzero : (⟨0, 0⟩ : Digits).value ≤ (x.mantissa + 1 / 2) * 2 ^ x.exponent := by
    unfold Digits.value
    push_cast
    rw [zero_mul]
    positivity
  unfold shortest
  simp only
  split
  · exact ⟨hzero, fun _ => rfl⟩
  · cases hfound : x.shortestFrom 17 (decade x.fraction.1 x.fraction.2) with
    | none => exact ⟨hzero, fun _ => rfl⟩
    | some d =>
      obtain ⟨hadmits, hdigits⟩ := admits_of_shortestFrom hfound
      have hle := value_le_of_admits hadmits
      simp only [Option.getD_some]
      split
      · rename_i hten
        refine ⟨?_, fun h => absurd h Nat.one_ne_zero⟩
        have hsame : (⟨1, d.exponent + 1⟩ : Digits).value = d.value := by
          unfold Digits.value
          rw [hten, zpow_add_one₀ (by norm_num)]
          push_cast
          ring
        exact hsame ▸ hle
      · exact ⟨hle, fun h => absurd h hdigits⟩

end Binary64

end Workyard.Decimal
