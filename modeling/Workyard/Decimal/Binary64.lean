/-!
# Binary floating-point numbers

The finite numbers of the 64-bit format, each an integer times a power of two, with exact
arithmetic on natural numbers: rounding a fraction to the nearest of them, a half going to
the even neighbour, and reading a decimal numeral.
-/

namespace Workyard.Decimal

set_option autoImplicit false

/-- A finite number `± mantissa · 2 ^ exponent` of the format. Every number has one form: the
mantissa has all 53 bits unless the exponent is the least one. -/
structure Binary64 where
  negative : Bool
  mantissa : Nat
  exponent : Int
  /-- Less than the 53rd power of two. -/
  mantissa_lt : mantissa < 9007199254740992
  le_exponent : -1074 ≤ exponent
  exponent_le : exponent ≤ 971
  normal : exponent = -1074 ∨ 4503599627370496 ≤ mantissa
  deriving DecidableEq

namespace Binary64

def zero (negative : Bool) : Binary64 :=
  ⟨negative, 0, -1074, by decide, by decide, by decide, .inl rfl⟩

def ofParts? (negative : Bool) (mantissa : Nat) (exponent : Int) : Option Binary64 :=
  if h : mantissa < 9007199254740992 ∧ -1074 ≤ exponent ∧ exponent ≤ 971 ∧
      (exponent = -1074 ∨ 4503599627370496 ≤ mantissa) then
    some ⟨negative, mantissa, exponent, h.1, h.2.1, h.2.2.1, h.2.2.2⟩
  else none

def neg (x : Binary64) : Binary64 :=
  { x with negative := !x.negative }

/-- The quotient rounded to the nearest integer, a half to the even one. -/
def roundDiv (num den : Nat) : Nat :=
  let q := num / den
  let r := num % den
  if 2 * r < den then q
  else if den < 2 * r then q + 1
  else if q % 2 = 0 then q else q + 1

/-- `num / den · 2 ^ (-exponent)`, rounded. -/
def scaled (num den : Nat) (exponent : Int) : Nat :=
  if 0 ≤ exponent then roundDiv num (den * Nat.pow 2 exponent.toNat)
  else roundDiv (num * Nat.pow 2 (-exponent).toNat) den

/-- The exponent with which a positive fraction gets a mantissa of 53 bits, or the least
exponent of the format. -/
def exponentOf (num den : Nat) : Int :=
  let guess : Int := (num.log2 : Int) - den.log2 - 52
  let small :=
    if 0 ≤ guess then decide (num < den * Nat.pow 2 (guess.toNat + 52))
    else decide (num * Nat.pow 2 (-guess).toNat < den * 4503599627370496)
  max (-1074) (if small then guess - 1 else guess)

/-- The number nearest to `num / den`; none when it lies beyond the largest one. -/
def ofFraction? (negative : Bool) (num den : Nat) : Option Binary64 :=
  if num = 0 || den = 0 then some (zero negative)
  else
    let e := exponentOf num den
    let m := scaled num den e
    if m = 9007199254740992 then ofParts? negative 4503599627370496 (e + 1)
    else ofParts? negative m e

/-- The number nearest to `digits · 10 ^ exponent`. Exponents that leave no doubt are decided
without computing the power. -/
def ofDecimal? (negative : Bool) (digits : Nat) (exponent : Int) : Option Binary64 :=
  if digits = 0 then some (zero negative)
  else if 400 < exponent then none
  else if exponent < -400 - (digits.log2 : Int) then some (zero negative)
  else if 0 ≤ exponent then ofFraction? negative (digits * Nat.pow 10 exponent.toNat) 1
  else ofFraction? negative digits (Nat.pow 10 (-exponent).toNat)

def fraction (x : Binary64) : Nat × Nat :=
  if 0 ≤ x.exponent then (x.mantissa * Nat.pow 2 x.exponent.toNat, 1)
  else (x.mantissa, Nat.pow 2 (-x.exponent).toNat)

def whole? (x : Binary64) : Option Nat :=
  let (num, den) := x.fraction
  if num % den = 0 then some (num / den) else none

/-- The product with, or the quotient by, a positive number, rounded. -/
def scale? (x y : Binary64) (divide : Bool) : Option Binary64 :=
  let (a, b) := x.fraction
  let (c, d) := y.fraction
  if divide then ofFraction? x.negative (a * d) (b * c) else ofFraction? x.negative (a * c) (b * d)

end Binary64

end Workyard.Decimal
