import Workyard.Script.Tree

/-!
# Cooked strings

The value of a string is built from raw text and escapes. Escapes stand for code units, of
which two that are halves of one character make that character when nothing stands between
them; a half that stays alone becomes the replacement character.
-/

namespace Workyard.Options

set_option autoImplicit false

open Script

/-- What stands for a code unit or a code point that is no character. -/
def replacement : Char := '\uFFFD'

/-- A part of the text of a string. -/
inductive Piece where
  | raw (text : List Char)
  /-- A code unit or a code point. -/
  | unit (code : Nat)
  /-- An escaped line end, which stands for nothing. -/
  | continuation
  deriving DecidableEq, Repr

def isHighHalf (code : Nat) : Bool := 0xD800 ≤ code && code ≤ 0xDBFF

def isLowHalf (code : Nat) : Bool := 0xDC00 ≤ code && code ≤ 0xDFFF

def charOf (code : Nat) : Char :=
  if code.isValidChar then Char.ofNat code else replacement

def joinHalves (high low : Nat) : Char :=
  charOf (0x10000 + (high - 0xD800) * 0x400 + (low - 0xDC00))

def flush (pending : Option Nat) : List Char :=
  if pending.isSome then [replacement] else []

/-- The value of the pieces, when a high half is pending before them. -/
def cookFrom : Option Nat → List Piece → List Char
  | pending, [] => flush pending
  | pending, .raw text :: ps =>
    if text.isEmpty then cookFrom pending ps
    else flush pending ++ text ++ cookFrom none ps
  | pending, .continuation :: ps => flush pending ++ cookFrom none ps
  | pending, .unit code :: ps =>
    match pending with
    | some high =>
      if isLowHalf code then joinHalves high code :: cookFrom none ps
      else if isHighHalf code then replacement :: cookFrom (some code) ps
      else replacement :: charOf code :: cookFrom none ps
    | none =>
      if isHighHalf code then cookFrom (some code) ps
      else charOf code :: cookFrom none ps

def cook (ps : List Piece) : String :=
  String.ofList (cookFrom none ps)

def digitOf (c : Char) : Nat :=
  if c.isDigit then c.toNat - 48
  else if 'a' ≤ c then c.toNat - 87
  else c.toNat - 55

def codeOf (radix : Nat) (digits : List Char) : Nat :=
  digits.foldl (fun n c => n * radix + digitOf c) 0

/-- What an escape stands for, given the characters after its backslash. -/
def escaped : List Char → Piece
  | [] => .raw []
  | c :: cs =>
    if c = 'n' then .unit 0xA
    else if c = 't' then .unit 0x9
    else if c = 'r' then .unit 0xD
    else if c = 'b' then .unit 0x8
    else if c = 'f' then .unit 0xC
    else if c = 'v' then .unit 0xB
    else if c = '\r' || c = '\n' || c = '\u2028' || c = '\u2029' then .continuation
    else if '0' ≤ c && c ≤ '7' then .unit (codeOf 8 (c :: cs))
    else if c = 'x' then .unit (codeOf 16 cs)
    else if c = 'u' then .unit (codeOf 16 (cs.filter fun d => d ≠ '\x7b' && d ≠ '\x7d'))
    else .unit c.toNat

variable {source : List Char}

def piecesOf : List (Node source) → List Piece
  | [] => []
  | n :: ns =>
    match n.kind with
    | .fragment => .raw n.text.toList :: piecesOf ns
    | .escape => escaped (n.text.toList.drop 1) :: piecesOf ns
    | _ => piecesOf ns

end Workyard.Options
