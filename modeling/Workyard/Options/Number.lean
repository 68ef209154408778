import Workyard.Json.Printer

/-!
# Number literals

The value of a number as it is spelled in a script. Whole numbers without a fraction or an
exponent stay integers as long as they fit 64 bits; all others are binary numbers. A literal
beyond the range of its kind has no value.
-/

namespace Workyard.Options

set_option autoImplicit false

open Decimal

/-- Digits of a base up to sixteen, in either case. -/
def digitValue? (radix : Nat) (c : Char) : Option Nat :=
  let value? :=
    if c.isDigit then some (c.toNat - 48)
    else if 'a' ≤ c && c ≤ 'z' then some (c.toNat - 87)
    else if 'A' ≤ c && c ≤ 'Z' then some (c.toNat - 55)
    else none
  value?.filter (· < radix)

def naturalFrom? (radix : Nat) : Nat → List Char → Option Nat
  | acc, [] => some acc
  | acc, c :: cs =>
    match digitValue? radix c with
    | some d => naturalFrom? radix (acc * radix + d) cs
    | none => none

def natural? (radix : Nat) (cs : List Char) : Option Nat :=
  if cs.isEmpty then none else naturalFrom? radix 0 cs

/-- The exponent of a numeral, from its letter on; nothing at all is zero. -/
def exponent? : List Char → Option Int
  | [] => some 0
  | e :: cs =>
    if e = 'e' || e = 'E' then
      match cs with
      | '-' :: ds => (natural? 10 ds).map fun n => -(n : Int)
      | '+' :: ds => (natural? 10 ds).map Int.ofNat
      | ds => (natural? 10 ds).map Int.ofNat
    else none

/-- The value of a numeral with a fraction or an exponent. Either part of the digits may be
empty, and not both. -/
def real? (negative : Bool) (cs : List Char) : Option Binary64 := do
  let whole := cs.takeWhile Char.isDigit
  let rest := cs.dropWhile Char.isDigit
  let (fraction, rest) :=
    match rest with
    | '.' :: rest => (rest.takeWhile Char.isDigit, rest.dropWhile Char.isDigit)
    | rest => ([], rest)
  let digits ← natural? 10 (whole ++ fraction)
  let exponent ← exponent? rest
  Binary64.ofDecimal? negative digits (exponent - fraction.length)

/-- The base that a mark at the start of the numeral asks for. -/
def radix? : List Char → Option (Nat × List Char)
  | '0' :: c :: cs =>
    if c = 'x' || c = 'X' then some (16, cs)
    else if c = 'o' || c = 'O' then some (8, cs)
    else if c = 'b' || c = 'B' then some (2, cs)
    else none
  | _ => none

/-- An integer of 64 bits, whose magnitude is less than the 63rd power of two. -/
def signedInteger? (negative : Bool) (magnitude : Nat) : Option Json.Number :=
  if magnitude < 9223372036854775808 then
    Json.Number.ofInt? (if negative then -magnitude else magnitude)
  else none

def isReal (cs : List Char) : Bool :=
  cs.any fun c => c = '.' || c = 'e' || c = 'E'

/-- The integer that a numeral in base ten stands for: with a sign if it fits, without one if
it has none and fits then. -/
def integer? (negative : Bool) (cs : List Char) : Option Json.Number :=
  if isReal cs then none
  else do
    let magnitude ← natural? 10 cs
    signedInteger? negative magnitude <|>
      if negative then none else Json.Number.ofInt? magnitude

/-- The value of a number literal under an optional sign. Underscores stand for nothing. -/
def number? (negative : Bool) (text : String) : Option Json.Number :=
  let cs := text.toList.filter (· ≠ '_')
  match radix? cs with
  | some (radix, ds) => (natural? radix ds).bind (signedInteger? negative)
  | none => integer? negative cs <|> (real? negative cs).map .real

/-- The name of a numeric key. Whole binary numbers below `10 ^ 15` are named without a
fraction. -/
def numericKey : Json.Number → String
  | .integer n h => String.ofList (Json.Number.chars (.integer n h))
  | .real x =>
    let plain? := x.whole?.filter (· < 1000000000000000)
    match plain? with
    | some n => String.ofList (if x.negative && n ≠ 0 then '-' :: digitsOf n else digitsOf n)
    | none => String.ofList (Json.Number.chars (.real x))

end Workyard.Options
