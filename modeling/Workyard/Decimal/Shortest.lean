import Workyard.Decimal.Binary64

/-!
# Shortest decimal digits

The decimal with the fewest digits among those that read back as a given binary number, and
of several such the one nearest to it.
-/

namespace Workyard.Decimal

set_option autoImplicit false

/-- A decimal `digits · 10 ^ exponent`. -/
structure Digits where
  digits : Nat
  exponent : Int
  deriving DecidableEq, Repr

/-- A positive fraction as a fraction of `10 ^ exponent`. -/
def overPower (num den : Nat) (exponent : Int) : Nat × Nat :=
  if 0 ≤ exponent then (num, den * Nat.pow 10 exponent.toNat)
  else (num * Nat.pow 10 (-exponent).toNat, den)

/-- The least exponent, from `guess` on and at most `steps` above it, whose successor's power
of ten exceeds the fraction. -/
def decadeFrom (num den : Nat) : Nat → Int → Int
  | 0, guess => guess
  | steps + 1, guess =>
    let (a, b) := overPower num den (guess + 1)
    if a < b then guess else decadeFrom num den steps (guess + 1)

/-- The exponent of the leading digit of a positive fraction. -/
def decade (num den : Nat) : Int :=
  let bits : Int := (num.log2 : Int) - den.log2
  decadeFrom num den 8 (bits * 30103 / 100000 - 3)

namespace Binary64

/-- The ends of the interval of numbers that round to `x`, as numerators over one
denominator, with the magnitude of `x` itself between them. -/
def interval (x : Binary64) : (Nat × Nat × Nat) × Nat :=
  let m := x.mantissa
  let (low, mid, high) :=
    if m = 4503599627370496 ∧ x.exponent ≠ -1074 then (4 * m - 1, 4 * m, 4 * m + 2)
    else (4 * m - 2, 4 * m, 4 * m + 2)
  let e := x.exponent - 2
  if 0 ≤ e then
    let unit := Nat.pow 2 e.toNat
    ((low * unit, mid * unit, high * unit), 1)
  else ((low, mid, high), Nat.pow 2 (-e).toNat)

def admits (x : Binary64) (d : Digits) : Bool :=
  let ((low, _, high), den) := x.interval
  let (a, b) :=
    if 0 ≤ d.exponent then (d.digits * Nat.pow 10 d.exponent.toNat, 1)
    else (d.digits, Nat.pow 10 (-d.exponent).toNat)
  if x.mantissa % 2 = 0 then low * b ≤ a * den && a * den ≤ high * b
  else low * b < a * den && a * den < high * b

/-- The neighbours of `x` on the grid of multiples of `10 ^ exponent`, and the nearer one of
those that read back. A tie goes to the even neighbour. -/
def onGrid? (x : Binary64) (exponent : Int) : Option Digits :=
  let (num, den) := x.fraction
  let (a, b) := overPower num den exponent
  let below : Digits := ⟨a / b, exponent⟩
  let above : Digits := ⟨a / b + 1, exponent⟩
  let r := a % b
  let first :=
    if 2 * r < b then true else if b < 2 * r then false else (a / b) % 2 == 0
  if first then
    if below.digits != 0 && x.admits below then some below
    else if x.admits above then some above else none
  else
    if x.admits above then some above
    else if below.digits != 0 && x.admits below then some below else none

def shortestFrom (x : Binary64) : Nat → Int → Option Digits
  | 0, _ => none
  | steps + 1, exponent =>
    match x.onGrid? exponent with
    | some d => some d
    | none => shortestFrom x steps (exponent - 1)

/-- The shortest decimal that reads back as `x`. The neighbour above a run of nines on the
coarsest grid is ten, which is one digit on the grid before. -/
def shortest (x : Binary64) : Digits :=
  let (num, den) := x.fraction
  if num = 0 then ⟨0, 0⟩
  else
    let d := (shortestFrom x 17 (decade num den)).getD ⟨0, 0⟩
    if d.digits = 10 then ⟨1, d.exponent + 1⟩ else d

end Binary64

/-- How a decimal is written: positional notation is used when the exponent of the leading
digit lies between `least` and `most`, with a fraction also for whole numbers. -/
structure NumeralStyle where
  least : Int
  most : Int

def digitsOf (n : Nat) : List Char :=
  Nat.toDigits 10 n

def NumeralStyle.write (style : NumeralStyle) (d : Digits) : List Char :=
  let ds := digitsOf d.digits
  let lead : Int := d.exponent + (ds.length : Int) - 1
  if style.least ≤ lead && lead ≤ style.most then
    if 0 ≤ d.exponent then ds ++ List.replicate d.exponent.toNat '0' ++ ['.', '0']
    else
      let places := (-d.exponent).toNat
      if places < ds.length then
        ds.take (ds.length - places) ++ '.' :: ds.drop (ds.length - places)
      else '0' :: '.' :: List.replicate (places - ds.length) '0' ++ ds
  else
    let mantissa :=
      match ds with
      | [c] => [c]
      | c :: cs => c :: '.' :: cs
      | [] => []
    mantissa ++ 'e' :: (if lead < 0 then '-' else '+') :: digitsOf lead.natAbs

end Workyard.Decimal
