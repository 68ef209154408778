import Workyard.Json.Printer
import Workyard.Proofs.Decimal.Rounding
import Workyard.Proofs.Json.Tokens

/-!
# Significands

The digits of a numeral make a significand, which is scaled with a power of ten. Both are rounded
first, and yet what comes out is a number wherever the numeral is not above the largest one.
-/

namespace Workyard.Json.Reader

set_option autoImplicit false

open Decimal

/-! ### Runs of digits -/

/-- What may come after a numeral. -/
def Stops (rest : List Char) : Prop :=
  ∀ c ∈ rest.head?, c.isDigit = false ∧ c ≠ '.' ∧ c ≠ 'e' ∧ c ≠ 'E'

def digitValues (cs : List Char) : List Nat :=
  cs.map fun c => c.toNat - 48

/-- The number with the digits `ds` after those of `n`. -/
def appendDigits (n : Nat) (ds : List Nat) : Nat :=
  ds.foldl (fun n d => n * 10 + d) n

theorem digitRun_append {ds rest : List Char} (hds : ∀ c ∈ ds, c.isDigit = true)
    (hrest : ∀ c ∈ rest.head?, c.isDigit = false) :
    digitRun (ds ++ rest) = (digitValues ds, rest) := by
  have htake : rest.takeWhile Char.isDigit = [] ∧ rest.dropWhile Char.isDigit = rest := by
    cases rest with
    | nil => exact ⟨rfl, rfl⟩
    | cons c rest =>
      have hc := hrest c rfl
      simp [hc]
  unfold digitRun digitValues
  rw [List.takeWhile_append_of_pos hds, List.dropWhile_append_of_pos hds, htake.1, htake.2,
    List.append_nil]

theorem le_appendDigits (n : Nat) (ds : List Nat) : n ≤ appendDigits n ds := by
  induction ds generalizing n with
  | nil => exact Nat.le_refl n
  | cons d ds ih =>
    have := ih (n * 10 + d)
    simp only [appendDigits, List.foldl_cons] at this ⊢
    omega

theorem appendDigits_digitValues (n : Nat) (cs : List Char) :
    appendDigits n (digitValues cs) = Nat.ofDigitChars 10 cs n := by
  rw [Nat.ofDigitChars_eq_foldl, appendDigits, digitValues, List.foldl_map]
  simp only [Nat.mul_comm]
  rfl

theorem isDigit_of_mem_digitsOf {n : Nat} {c : Char} (h : c ∈ digitsOf n) : c.isDigit = true :=
  Nat.isDigit_of_mem_toDigits (by decide) (by decide) h

theorem appendDigits_digitsOf (n : Nat) : appendDigits 0 (digitValues (digitsOf n)) = n := by
  rw [appendDigits_digitValues]
  exact Nat.ofDigitChars_ten_toDigits

theorem digitsOf_ne_nil (n : Nat) : digitsOf n ≠ [] :=
  Nat.toDigits_ne_nil

/-- A positive number does not begin with the digit zero. -/
theorem digitsOf_head {n : Nat} (h : n ≠ 0) :
    ∃ c cs, digitsOf n = c :: cs ∧ c.toNat - 48 ≠ 0 := by
  induction n using Nat.strongRecOn with
  | ind n ih =>
    by_cases hn : n < 10
    · refine ⟨Nat.digitChar n, [], Nat.toDigits_of_lt_base hn, ?_⟩
      have digits : ∀ k < 10, k ≠ 0 → (Nat.digitChar k).toNat - 48 ≠ 0 := by decide
      exact digits n hn h
    · obtain ⟨c, cs, hcs, hc⟩ := ih (n / 10) (by omega) (by omega)
      refine ⟨c, cs ++ [Nat.digitChar (n % 10)], ?_, hc⟩
      have hstep := Nat.toDigits_of_base_le (b := 10) (n := n) (by decide) (by omega)
      unfold digitsOf at hcs ⊢
      rw [hstep, hcs]
      rfl

/-! ### Significands -/

theorem wholeDigits_of_lt {n : Nat} {ds : List Nat} (e : Int) (h : appendDigits n ds < word) :
    wholeDigits ds false ⟨n, e⟩ = (false, ⟨appendDigits n ds, e⟩) := by
  induction ds generalizing n with
  | nil => rfl
  | cons d ds ih =>
    have hle := le_appendDigits (n * 10 + d) ds
    have hlt : appendDigits (n * 10 + d) ds < word := h
    have hd : ¬ word ≤ n * 10 + d := by omega
    simp only [wholeDigits, Bool.false_eq_true, if_false, hd]
    exact ih hlt

theorem mul_pow_le_appendDigits (n : Nat) (ds : List Nat) :
    n * 10 ^ ds.length ≤ appendDigits n ds := by
  induction ds generalizing n with
  | nil => simp [appendDigits]
  | cons d ds ih =>
    calc n * 10 ^ (d :: ds).length = n * 10 * 10 ^ ds.length := by
          rw [List.length_cons, Nat.pow_succ]
          ring
      _ ≤ (n * 10 + d) * 10 ^ ds.length := Nat.mul_le_mul_right _ (Nat.le_add_right _ _)
      _ ≤ appendDigits (n * 10 + d) ds := ih _

/-- The value of a significand. -/
def Significand.amount (s : Significand) : ℚ :=
  s.value * 10 ^ s.exponent

/-- Digits that do not fit only make the significand smaller. -/
theorem fractionDigits_spec (ds : List Nat) (s : Significand) (h : s.value < word) :
    (fractionDigits ds s).value < word ∧ (fractionDigits ds s).exponent ≤ s.exponent ∧
      (fractionDigits ds s).amount ≤
        appendDigits s.value ds * (10 : ℚ) ^ (s.exponent - ds.length) := by
  induction ds generalizing s with
  | nil => exact ⟨h, le_refl _, by simp [fractionDigits, appendDigits, Significand.amount]⟩
  | cons d ds ih =>
    unfold fractionDigits
    split
    · refine ⟨h, le_refl _, ?_⟩
      have hle : (s.value * 10 ^ (d :: ds).length : ℚ) ≤ appendDigits s.value (d :: ds) := by
        exact_mod_cast mul_pow_le_appendDigits s.value (d :: ds)
      unfold Significand.amount
      calc (s.value : ℚ) * 10 ^ s.exponent
          = s.value * 10 ^ (d :: ds).length * 10 ^ (s.exponent - (d :: ds).length) := by
            rw [mul_assoc, ← zpow_natCast, ← zpow_add₀ (by norm_num), add_sub_cancel]
        _ ≤ _ := by gcongr
    · rename_i hword
      obtain ⟨hlt, hexponent, hle⟩ := ih ⟨s.value * 10 + d, s.exponent - 1⟩ (by simpa using hword)
      refine ⟨hlt, by simp only at hexponent; omega, ?_⟩
      have hplaces : s.exponent - ((d :: ds).length : ℕ) = s.exponent - 1 - (ds.length : ℕ) := by
        rw [List.length_cons]
        push_cast
        ring
      rw [hplaces]
      exact hle

/-! ### Scaling a significand -/

open Binary64

theorem greatestPower_eq : greatestPower = 308 := rfl

/-- A number that is divided by powers of ten stays small. -/
theorem scaleBy_of_neg (steps : Nat) {e : Int} (he : e < 0) {x : Binary64}
    (hx : (x.magnitude + 1) * 2 ^ steps ≤ 2 ^ 100) : ∃ y, scaleBy steps e x = some y := by
  induction steps generalizing e x with
  | zero => exact ⟨x, rfl⟩
  | succ steps ih =>
    have hnonneg := x.magnitude_nonneg
    have hone : (1 : ℚ) ≤ 2 ^ steps := one_le_pow₀ (by norm_num)
    have hsmall : x.magnitude < limit := by
      have := two_pow_lt_limit
      rw [pow_succ] at hx
      nlinarith
    have hquotient : ∀ k : ℕ, k ≤ greatestPower → ∃ p y, Binary64.ofDecimal? false 1 k = some p ∧
        x.scale? p true = some y ∧ (y.magnitude + 1) * 2 ^ steps ≤ 2 ^ 100 := by
      intro k hk
      obtain ⟨p, hp, hrounds⟩ := ofDecimal?_ten_pow hk
      have hpone := hrounds.one_le (one_le_pow₀ (by norm_num))
      have hdiv : x.magnitude / p.magnitude ≤ x.magnitude := div_le_self hnonneg hpone
      obtain ⟨y, hy, hyrounds⟩ := scale?_div x p (lt_of_le_of_lt hdiv hsmall)
      refine ⟨p, y, hp, hy, ?_⟩
      have htiny : (2 : ℚ) ^ (-1075 : ℤ) ≤ 1 / 2 := by
        rw [show (1 / 2 : ℚ) = 2 ^ (-1 : ℤ) by norm_num]
        exact zpow_le_zpow_right₀ (by norm_num) (by norm_num)
      have hy' : y.magnitude + 1 ≤ 2 * (x.magnitude + 1) := by
        have := hyrounds.le
        linarith
      calc (y.magnitude + 1) * 2 ^ steps ≤ 2 * (x.magnitude + 1) * 2 ^ steps := by gcongr
        _ = (x.magnitude + 1) * 2 ^ (steps + 1) := by ring
        _ ≤ 2 ^ 100 := hx
    have hgreatest := greatestPower_eq
    unfold scaleBy
    split
    · rename_i hpower
      obtain ⟨p, y, hp, hy, -⟩ := hquotient e.natAbs hpower
      refine ⟨y, ?_⟩
      rw [hp, decide_eq_true he]
      exact hy
    · rename_i hpower
      split
      · exact ⟨x, rfl⟩
      · rw [if_neg (by omega)]
        obtain ⟨p, y, hp, hy, hsize⟩ := hquotient greatestPower (le_refl _)
        obtain ⟨z, hz⟩ := ih (e := e + greatestPower) (by omega) hsize
        refine ⟨z, ?_⟩
        simp only [hp, hy, Option.bind_eq_bind, Option.bind_some]
        exact hz

/-- Three and a half units below the end there is room for rounding three times. -/
def most : ℚ :=
  (2 ^ 53 - 7 / 2) * 2 ^ (971 : ℤ)

theorem rounds_le {v : ℚ} {y : Binary64} (h : Rounds v y) (hv : 1 ≤ v) :
    y.magnitude ≤ v * (1 + 1 / 2 ^ 53 + 1 / 2 ^ 100) := by
  have htiny : (2 : ℚ) ^ (-1075 : ℤ) ≤ 2 ^ (-100 : ℤ) :=
    zpow_le_zpow_right₀ (by norm_num) (by norm_num)
  have hle := h.le
  have hscaled : (1 : ℚ) / 2 ^ 100 ≤ v * (1 / 2 ^ 100) := by
    have : (0 : ℚ) < 1 / 2 ^ 100 := by positivity
    nlinarith
  have hcast : (2 : ℚ) ^ (-100 : ℤ) = 1 / 2 ^ 100 := by norm_num
  rw [hcast] at htiny
  generalize (2 : ℚ) ^ (-1075 : ℤ) = tiny at *
  linarith

theorem most_mul_lt_limit : most * (1 + 1 / 2 ^ 53 + 1 / 2 ^ 100) ^ 2 < limit := by
  have hunit : (0 : ℚ) < 2 ^ (971 : ℤ) := by positivity
  unfold most limit
  rw [mul_right_comm]
  exact mul_lt_mul_of_pos_right (by norm_num) hunit

theorem product_lt_limit {v w : ℚ} {x p : Binary64} (hx : Rounds v x) (hp : Rounds w p)
    (hv : 1 ≤ v) (hw : 1 ≤ w) (hmost : v * w ≤ most) : x.magnitude * p.magnitude < limit := by
  have hxle := rounds_le hx hv
  have hple := rounds_le hp hw
  have hpnonneg := p.magnitude_nonneg
  have hroom := most_mul_lt_limit
  generalize most = bound at *
  calc x.magnitude * p.magnitude
      ≤ v * (1 + 1 / 2 ^ 53 + 1 / 2 ^ 100) * (w * (1 + 1 / 2 ^ 53 + 1 / 2 ^ 100)) := by
        gcongr
    _ = v * w * (1 + 1 / 2 ^ 53 + 1 / 2 ^ 100) ^ 2 := by ring
    _ ≤ bound * (1 + 1 / 2 ^ 53 + 1 / 2 ^ 100) ^ 2 := by gcongr
    _ < limit := hroom

theorem word_le_most : (18446744073709551616 : ℚ) ≤ most := by
  have hunit : (2 : ℚ) ^ (64 : ℤ) ≤ 2 ^ (971 : ℤ) := zpow_le_zpow_right₀ (by norm_num) (by norm_num)
  have hpos : (0 : ℚ) < 2 ^ (971 : ℤ) := by positivity
  unfold most
  generalize (2 : ℚ) ^ (971 : ℤ) = unit at *
  norm_num at hunit ⊢
  linarith

theorem most_lt_ten_pow : most < 10 ^ (309 : ℤ) := by
  have hnat : 2 ^ 53 * 2 ^ 971 < 10 ^ 309 := by decide +kernel
  have hcast : ((2 ^ 53 * 2 ^ 971 : ℕ) : ℚ) < ((10 ^ 309 : ℕ) : ℚ) := by exact_mod_cast hnat
  rw [Nat.cast_mul, Nat.cast_pow, Nat.cast_pow, Nat.cast_pow] at hcast
  have hten : (10 : ℚ) ^ (309 : ℤ) = ((10 : ℕ) : ℚ) ^ 309 := by
    rw [← zpow_natCast]
    rfl
  have hunit : (2 : ℚ) ^ (971 : ℤ) = ((2 : ℕ) : ℚ) ^ 971 := by
    rw [← zpow_natCast]
    rfl
  have hpos : (0 : ℚ) < ((2 : ℕ) : ℚ) ^ 971 := by positivity
  unfold most
  rw [hunit, hten]
  exact lt_trans (mul_lt_mul_of_pos_right (by norm_num) hpos) hcast

/-- A significand of a whole number, which may have to be multiplied. -/
theorem scaleBy_of_nonneg (steps : Nat) {e : Int} (he : 0 ≤ e) {v : ℕ} {x : Binary64}
    (hx : Rounds v x) (hzero : v = 0 → x.mantissa = 0) (hmost : (v : ℚ) * 10 ^ e ≤ most) :
    ∃ y, scaleBy (steps + 1) e x = some y := by
  have hproduct : e.natAbs ≤ greatestPower → ∃ p y,
      Binary64.ofDecimal? false 1 e.natAbs = some p ∧ x.scale? p false = some y := by
    intro hpower
    obtain ⟨p, hp, hrounds⟩ := ofDecimal?_ten_pow hpower
    have hlimit : x.magnitude * p.magnitude < limit := by
      rcases Nat.eq_zero_or_pos v with hv | hv
      · have hnone : x.magnitude = 0 := by
          unfold magnitude
          rw [hzero hv, Nat.cast_zero, zero_mul]
        rw [hnone, zero_mul]
        exact lt_trans (by positivity) two_pow_lt_limit
      · refine product_lt_limit hx hrounds (by exact_mod_cast hv) (one_le_pow₀ (by norm_num)) ?_
        rw [← zpow_natCast, Int.natAbs_of_nonneg he]
        exact hmost
    obtain ⟨y, hy, -⟩ := scale?_mul x p hlimit
    exact ⟨p, y, hp, hy⟩
  have hgreatest := greatestPower_eq
  unfold scaleBy
  split
  · rename_i hpower
    obtain ⟨p, y, hp, hy⟩ := hproduct hpower
    refine ⟨y, ?_⟩
    rw [hp, decide_eq_false (by omega)]
    exact hy
  · rename_i hpower
    have hv : v = 0 := by
      by_contra hv
      have hone : (1 : ℚ) ≤ v := by exact_mod_cast Nat.pos_of_ne_zero hv
      have hstep : (10 : ℚ) ^ (309 : ℤ) ≤ 10 ^ e := zpow_le_zpow_right₀ (by norm_num) (by omega)
      have hten : (10 : ℚ) ^ e ≤ v * 10 ^ e := le_mul_of_one_le_left (by positivity) hone
      exact absurd (lt_of_le_of_lt (hstep.trans (hten.trans hmost)) most_lt_ten_pow) (lt_irrefl _)
    rw [if_pos (hzero hv)]
    exact ⟨x, rfl⟩

/-- A significand that is not too large has a number. -/
theorem real_eq_ok (negative : Bool) {s : Significand} (hword : s.value < word)
    (hmost : s.exponent ≤ 0 ∨ s.amount ≤ most) : ∃ y, real negative s = .ok (.real y) := by
  have hvalue : (s.value : ℚ) ≤ 18446744073709551616 := by exact_mod_cast hword.le
  have hlimit : ((s.value : ℕ) : ℚ) / (1 : ℕ) < limit := by
    rw [Nat.cast_one, div_one]
    exact lt_trans (lt_of_le_of_lt hvalue (by norm_num)) two_pow_lt_limit
  obtain ⟨x, hx, hrounds⟩ := ofFraction?_eq_some negative hlimit
  rw [Nat.cast_one, div_one] at hrounds
  have hscale : ∃ y, scaleBy 4 s.exponent x = some y := by
    rcases lt_or_ge s.exponent 0 with he | he
    · refine scaleBy_of_neg 4 he ?_
      have hle := hrounds.le
      have htiny : (2 : ℚ) ^ (-1075 : ℤ) ≤ 1 := zpow_le_one_of_nonpos₀ (by norm_num) (by norm_num)
      generalize (2 : ℚ) ^ (-1075 : ℤ) = tiny at *
      norm_num
      linarith
    · have hamount : (s.value : ℚ) * 10 ^ s.exponent ≤ most := by
        rcases hmost with hle | hmost
        · rw [le_antisymm hle he, zpow_zero, mul_one]
          exact hvalue.trans word_le_most
        · exact hmost
      refine scaleBy_of_nonneg 3 he hrounds ?_ hamount
      intro hzero
      rw [hzero] at hx
      obtain rfl := Option.some.inj hx
      rfl
  obtain ⟨y, hy⟩ := hscale
  refine ⟨y, ?_⟩
  unfold real
  rw [hx, Option.bind_some, hy]

end Workyard.Json.Reader
