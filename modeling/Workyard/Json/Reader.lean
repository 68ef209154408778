import Workyard.Json.Basic
import Workyard.Text.Offset

/-!
# Reading JSON

A reader takes the characters ahead and gives what it read with the characters after it, or
the first fault. Values are read in full, or passed over where nobody asks for them; what is
passed over need only have the form of JSON, whatever its numbers and how deep its nesting.
-/

namespace Workyard.Json

set_option autoImplicit false

open Decimal Text

/-- Why a text is not the JSON that was asked for: it is not JSON, it ends too early, or it
is JSON of another shape. -/
inductive Fault where
  | malformed | truncated | misshapen
  deriving DecidableEq, Repr

def Fault.message : Fault → String
  | malformed => "not JSON"
  | truncated => "JSON that ends too early"
  | misshapen => "JSON of another shape"

abbrev Reader (α : Type) := List Char → Except Fault (α × List Char)

namespace Reader

def isSpace (c : Char) : Bool :=
  c == ' ' || c == '\n' || c == '\t' || c == '\r'

def skipSpace (cs : List Char) : List Char :=
  cs.dropWhile isSpace

/-- The rest of a word whose first letter was seen. -/
def wordTail : List Char → List Char → Except Fault (List Char)
  | [], cs => .ok cs
  | _, [] => .error .truncated
  | w :: ws, c :: cs => if c = w then wordTail ws cs else .error .malformed

/-! ### Strings -/

def hexValue? (c : Char) : Option Nat :=
  if c.isDigit then some (c.toNat - 48)
  else if 'a' ≤ c && c ≤ 'f' then some (c.toNat - 87)
  else if 'A' ≤ c && c ≤ 'F' then some (c.toNat - 55)
  else none

/-- Four hexadecimal digits. A text with fewer than four bytes left is truncated. -/
def fourHex (cs : List Char) : Except Fault (Nat × List Char) :=
  if byteLength (cs.take 4) < 4 then .error .truncated
  else
    match cs with
    | a :: b :: c :: d :: cs =>
      match hexValue? a, hexValue? b, hexValue? c, hexValue? d with
      | some a, some b, some c, some d => .ok (((a * 16 + b) * 16 + c) * 16 + d, cs)
      | _, _, _, _ => .error .malformed
    | _ => .error .malformed

/-- The letters that may follow a backslash, with what they stand for. -/
def plainEscape? (c : Char) : Option Char :=
  if c = '\x22' || c = '\\' || c = '/' then some c
  else if c = 'b' then some '\x08'
  else if c = 'f' then some '\x0c'
  else if c = 'n' then some '\n'
  else if c = 'r' then some '\r'
  else if c = 't' then some '\t'
  else none

/-- The character of an escape `\u`, whose digits are ahead. Surrogates come in pairs. -/
def unicodeEscape (cs : List Char) : Except Fault (Char × List Char) := do
  let (n, cs) ← fourHex cs
  if 0xDC00 ≤ n && n ≤ 0xDFFF then .error .malformed
  else if n < 0xD800 || 0xDBFF < n then .ok (Char.ofNat n, cs)
  else
    match cs with
    | [] => .error .truncated
    | '\\' :: cs =>
      match cs with
      | [] => .error .truncated
      | 'u' :: cs => do
        let (m, cs) ← fourHex cs
        if m < 0xDC00 || 0xDFFF < m then .error .malformed
        else .ok (Char.ofNat (0x10000 + (n - 0xD800) * 0x400 + (m - 0xDC00)), cs)
      | _ => .error .malformed
    | _ => .error .malformed

def stringTail : Nat → Reader (List Char)
  | 0, _ => .error .truncated
  | _, [] => .error .truncated
  | fuel + 1, c :: cs =>
    if c = '\x22' then .ok ([], cs)
    else if c = '\\' then
      match cs with
      | [] => .error .truncated
      | e :: cs =>
        if e = 'u' then do
          let (x, cs) ← unicodeEscape cs
          let (xs, cs) ← stringTail fuel cs
          .ok (x :: xs, cs)
        else
          match plainEscape? e with
          | some x => do
            let (xs, cs) ← stringTail fuel cs
            .ok (x :: xs, cs)
          | none => .error .malformed
    else if c.toNat < 0x20 then .error .malformed
    else do
      let (xs, cs) ← stringTail fuel cs
      .ok (c :: xs, cs)

def string : Reader String := fun cs => do
  let (xs, cs) ← stringTail (cs.length + 1) cs
  .ok (String.ofList xs, cs)

/-- Passes over a string whose opening quote was seen. Surrogates are not looked at. -/
def skipString : Nat → List Char → Except Fault (List Char)
  | 0, _ => .error .truncated
  | _, [] => .error .truncated
  | fuel + 1, c :: cs =>
    if c = '\x22' then .ok cs
    else if c = '\\' then
      match cs with
      | [] => .error .truncated
      | e :: cs =>
        if e = 'u' then do
          let (_, cs) ← fourHex cs
          skipString fuel cs
        else if (plainEscape? e).isSome then skipString fuel cs
        else .error .malformed
    else if c.toNat < 0x20 then .error .malformed
    else skipString fuel cs

/-! ### Numbers -/

def digitRun (cs : List Char) : List Nat × List Char :=
  ((cs.takeWhile Char.isDigit).map fun c => c.toNat - 48, cs.dropWhile Char.isDigit)

/-- Leading digits of a numeral as far as they fit 64 bits, and a power of ten for the rest
of the whole part. Digits of the fraction after the first that does not fit have no weight. -/
structure Significand where
  value : Nat
  exponent : Int

/-- The first number that does not fit 64 bits. -/
def word : Nat := 18446744073709551616

def wholeDigits : List Nat → Bool → Significand → Bool × Significand
  | [], full, s => (full, s)
  | d :: ds, full, s =>
    if full then wholeDigits ds true ⟨s.value, s.exponent + 1⟩
    else if word ≤ s.value * 10 + d then wholeDigits ds true ⟨s.value, s.exponent + 1⟩
    else wholeDigits ds false ⟨s.value * 10 + d, s.exponent⟩

def fractionDigits : List Nat → Significand → Significand
  | [], s => s
  | d :: ds, s =>
    if word ≤ s.value * 10 + d then s
    else fractionDigits ds ⟨s.value * 10 + d, s.exponent - 1⟩

/-- The greatest power of ten that is used as one factor. -/
def greatestPower : Nat := 308

/-- Significand and power of ten are rounded each on its own before they are multiplied or
divided; smaller powers are reached in several steps. -/
def scaleBy : Nat → Int → Binary64 → Option Binary64
  | 0, _, x => some x
  | steps + 1, exponent, x =>
    if exponent.natAbs ≤ greatestPower then do
      let power ← Binary64.ofDecimal? false 1 exponent.natAbs
      x.scale? power (decide (exponent < 0))
    else if x.mantissa = 0 then some x
    else if 0 ≤ exponent then none
    else do
      let power ← Binary64.ofDecimal? false 1 greatestPower
      let y ← x.scale? power true
      scaleBy steps (exponent + greatestPower) y

def real (negative : Bool) (s : Significand) : Except Fault Number :=
  match (Binary64.ofFraction? negative s.value 1).bind (scaleBy 4 s.exponent) with
  | some x => .ok (.real x)
  | none => .error .malformed

/-- An exponent too large for any bound stands for zero or for no number. -/
def exponentLimit : Int := 2147483648

/-- The exponent of a numeral after its letter. -/
def exponentTail (cs : List Char) : Except Fault (Int × List Char) :=
  let (negative, cs) :=
    match cs with
    | '+' :: cs => (false, cs)
    | '-' :: cs => (true, cs)
    | _ => (false, cs)
  match digitRun cs, cs with
  | ([], _), [] => .error .truncated
  | ([], _), _ => .error .malformed
  | (ds, cs), _ =>
    let n : Int := ds.foldl (fun (n : Int) (d : Nat) => min exponentLimit (n * 10 + d)) 0
    .ok (if negative then -n else n, cs)

def startsExponent : List Char → Bool
  | c :: _ => c == 'e' || c == 'E'
  | [] => false

/-- What follows the significand of a numeral that is no integer. -/
def realTail (negative : Bool) (s : Significand) (cs : List Char) :
    Except Fault (Number × List Char) :=
  if startsExponent cs then do
    let (e, cs) ← exponentTail (cs.drop 1)
    .ok (← real negative ⟨s.value, s.exponent + e⟩, cs)
  else do
    .ok (← real negative s, cs)

def integer (negative : Bool) (value : Nat) : Number :=
  let signed : Int := if negative then -value else value
  if negative && value = 0 then .real (.zero true)
  else
    match Number.ofInt? signed with
    | some n => n
    | none => .real ((Binary64.ofFraction? negative value 1).getD (.zero negative))

def number (negative : Bool) (cs : List Char) : Except Fault (Number × List Char) :=
  match digitRun cs, cs with
  | ([], _), [] => .error .truncated
  | ([], _), _ => .error .malformed
  | (0 :: _ :: _, _), _ => .error .malformed
  | (ds, cs), _ =>
    let (full, s) := wholeDigits ds false ⟨0, 0⟩
    match cs with
    | '.' :: cs =>
      match digitRun cs, cs with
      | ([], _), [] => .error .truncated
      | ([], _), _ => .error .malformed
      | (fs, cs), _ => realTail negative (fractionDigits fs s) cs
    | cs =>
      if full || startsExponent cs then realTail negative s cs
      else .ok (integer negative s.value, cs)

/-- Passes over a number whose sign was seen. -/
def skipNumber (cs : List Char) : Except Fault (List Char) := do
  let cs ←
    match digitRun cs with
    | ([], _) => .error .malformed
    | (0 :: _ :: _, _) => .error .malformed
    | (_, cs) => .ok cs
  let cs ←
    match cs with
    | '.' :: cs =>
      match digitRun cs with
      | ([], _) => .error .malformed
      | (_, cs) => .ok cs
    | cs => .ok cs
  if startsExponent cs then
    let cs :=
      match cs.drop 1 with
      | '+' :: cs => cs
      | '-' :: cs => cs
      | cs => cs
    match digitRun cs with
    | ([], _) => .error .malformed
    | (_, cs) => .ok cs
  else .ok cs

/-! ### Lists and objects -/

/-- Whether a further item of a list follows; white space and the comma before it are
passed over. -/
def nextItem (first : Bool) (cs : List Char) : Except Fault (Bool × List Char) :=
  match skipSpace cs with
  | [] => .error .truncated
  | c :: cs =>
    if c = ']' then .ok (false, cs)
    else if c = ',' && !first then
      match skipSpace cs with
      | [] => .error .truncated
      | ']' :: _ => .error .malformed
      | cs => .ok (true, cs)
    else if first then .ok (true, c :: cs)
    else .error .malformed

/-- Whether a further member of an object follows, up to and with the opening quote of its
key. -/
def nextMember (first : Bool) (cs : List Char) : Except Fault (Bool × List Char) :=
  let quote : List Char → Except Fault (Bool × List Char)
    | [] => .error .truncated
    | c :: cs => if c = '\x22' then .ok (true, cs) else .error .malformed
  match skipSpace cs with
  | [] => .error .truncated
  | c :: cs =>
    if c = '\x7d' then .ok (false, cs)
    else if c = ',' && !first then quote (skipSpace cs)
    else if first then quote (c :: cs)
    else .error .malformed

def colon (cs : List Char) : Except Fault (List Char) :=
  match skipSpace cs with
  | [] => .error .truncated
  | c :: cs => if c = ':' then .ok cs else .error .malformed

mutual

/-- A value with at most `depth` levels of arrays and objects. -/
def value : Nat → Nat → Reader Json
  | 0, _, _ => .error .truncated
  | fuel + 1, depth, cs =>
    match skipSpace cs with
    | [] => .error .truncated
    | c :: cs =>
      if c = 'n' then do .ok (.null, ← wordTail ['u', 'l', 'l'] cs)
      else if c = 't' then do .ok (.bool true, ← wordTail ['r', 'u', 'e'] cs)
      else if c = 'f' then do .ok (.bool false, ← wordTail ['a', 'l', 's', 'e'] cs)
      else if c = '-' then do
        let (n, cs) ← number true cs
        .ok (.number n, cs)
      else if c.isDigit then do
        let (n, cs) ← number false (c :: cs)
        .ok (.number n, cs)
      else if c = '\x22' then do
        let (s, cs) ← string cs
        .ok (.string s, cs)
      else if c = '[' then
        match depth with
        | 0 => .error .malformed
        | depth + 1 => do
          let (vs, cs) ← items fuel depth true cs
          .ok (.array vs, cs)
      else if c = '\x7b' then
        match depth with
        | 0 => .error .malformed
        | depth + 1 => do
          let (ms, cs) ← members fuel depth true [] cs
          .ok (.object ms, cs)
      else .error .malformed

def items : Nat → Nat → Bool → Reader (List Json)
  | 0, _, _, _ => .error .truncated
  | fuel + 1, depth, first, cs => do
    let (more, cs) ← nextItem first cs
    if more then
      let (v, cs) ← value fuel depth cs
      let (vs, cs) ← items fuel depth false cs
      .ok (v :: vs, cs)
    else .ok ([], cs)

def members : Nat → Nat → Bool → Members → Reader Members
  | 0, _, _, _, _ => .error .truncated
  | fuel + 1, depth, first, ms, cs => do
    let (more, cs) ← nextMember first cs
    if more then
      let (k, cs) ← string cs
      let (v, cs) ← value fuel depth (← colon cs)
      members fuel depth false (ms.set k v) cs
    else .ok (ms, cs)

end

mutual

def skipValue : Nat → List Char → Except Fault (List Char)
  | 0, _ => .error .truncated
  | fuel + 1, cs =>
    match skipSpace cs with
    | [] => .error .truncated
    | c :: cs =>
      if c = 'n' then wordTail ['u', 'l', 'l'] cs
      else if c = 't' then wordTail ['r', 'u', 'e'] cs
      else if c = 'f' then wordTail ['a', 'l', 's', 'e'] cs
      else if c = '-' then skipNumber cs
      else if c.isDigit then skipNumber (c :: cs)
      else if c = '\x22' then skipString (cs.length + 1) cs
      else if c = '[' then skipItems fuel true cs
      else if c = '\x7b' then skipMembers fuel true cs
      else .error .malformed

def skipItems : Nat → Bool → List Char → Except Fault (List Char)
  | 0, _, _ => .error .truncated
  | fuel + 1, first, cs => do
    let (more, cs) ← nextItem first cs
    if more then
      let cs ← skipValue fuel cs
      skipItems fuel false cs
    else .ok cs

def skipMembers : Nat → Bool → List Char → Except Fault (List Char)
  | 0, _, _ => .error .truncated
  | fuel + 1, first, cs => do
    let (more, cs) ← nextMember first cs
    if more then
      let cs ← skipString (cs.length + 1) cs
      let cs ← skipValue fuel (← colon cs)
      skipMembers fuel false cs
    else .ok cs

end

/-- Nothing but white space may follow. -/
def finish {α : Type} (read : Reader α) : List Char → Except Fault α := fun cs => do
  let (a, cs) ← read cs
  if (skipSpace cs).isEmpty then .ok a else .error .malformed

/-- Values nest at most this deep. -/
def maxDepth : Nat := 127

end Reader

def parse (text : String) : Except Fault Json :=
  let cs := text.toList
  Reader.finish (Reader.value (2 * cs.length + 2) Reader.maxDepth) cs

end Workyard.Json
