import Workyard.Json.Basic

/-!
# Writing JSON

The compact form, and the form with every member and item on a line of its own, indented by
two spaces for each level.
-/

namespace Workyard.Json

set_option autoImplicit false

open Decimal

/-- Numbers are written in positional notation from 0.00001 up to and without 10 ^ 16. -/
def numeralStyle : NumeralStyle := ⟨-5, 15⟩

def Number.chars : Number → List Char
  | .integer n _ => if n < 0 then '-' :: digitsOf n.natAbs else digitsOf n.natAbs
  | .real x =>
    let text := numeralStyle.write x.shortest
    if x.negative then '-' :: text else text

/-- The last hexadecimal digit of a number. -/
def hexDigit (n : Nat) : Char :=
  Nat.digitChar (n % 16)

/-- A character of a string. Quotes, backslashes and the controls below the space are
escaped, with a letter where there is one. -/
def escapeChar (c : Char) : List Char :=
  if c = '\x22' then ['\\', '\x22']
  else if c = '\\' then ['\\', '\\']
  else if c = '\x08' then ['\\', 'b']
  else if c = '\x0c' then ['\\', 'f']
  else if c = '\n' then ['\\', 'n']
  else if c = '\r' then ['\\', 'r']
  else if c = '\t' then ['\\', 't']
  else if c.toNat < 0x20 then ['\\', 'u', '0', '0', hexDigit (c.toNat / 16), hexDigit c.toNat]
  else [c]

def stringChars (s : String) : List Char :=
  '\x22' :: s.toList.flatMap escapeChar ++ ['\x22']

mutual

def compactChars : Json → List Char
  | .null => ['n', 'u', 'l', 'l']
  | .bool true => ['t', 'r', 'u', 'e']
  | .bool false => ['f', 'a', 'l', 's', 'e']
  | .number n => n.chars
  | .string s => stringChars s
  | .array vs => '[' :: compactItems vs ++ [']']
  | .object ms => '\x7b' :: compactMembers ms ++ ['\x7d']

def compactItems : List Json → List Char
  | [] => []
  | [v] => compactChars v
  | v :: vs => compactChars v ++ ',' :: compactItems vs

def compactMembers : List (String × Json) → List Char
  | [] => []
  | [(k, v)] => stringChars k ++ ':' :: compactChars v
  | (k, v) :: ms => stringChars k ++ ':' :: compactChars v ++ ',' :: compactMembers ms

end

def indent (level : Nat) : List Char :=
  List.replicate (2 * level) ' '

mutual

def prettyChars (level : Nat) : Json → List Char
  | .null => ['n', 'u', 'l', 'l']
  | .bool true => ['t', 'r', 'u', 'e']
  | .bool false => ['f', 'a', 'l', 's', 'e']
  | .number n => n.chars
  | .string s => stringChars s
  | .array [] => ['[', ']']
  | .array (v :: vs) =>
    '[' :: '\n' :: prettyItems (level + 1) (v :: vs) ++ '\n' :: indent level ++ [']']
  | .object [] => ['\x7b', '\x7d']
  | .object (m :: ms) =>
    '\x7b' :: '\n' :: prettyMembers (level + 1) (m :: ms) ++ '\n' :: indent level ++ ['\x7d']

def prettyItems (level : Nat) : List Json → List Char
  | [] => []
  | [v] => indent level ++ prettyChars level v
  | v :: vs => indent level ++ prettyChars level v ++ ',' :: '\n' :: prettyItems level vs

def prettyMembers (level : Nat) : List (String × Json) → List Char
  | [] => []
  | [(k, v)] => indent level ++ stringChars k ++ ':' :: ' ' :: prettyChars level v
  | (k, v) :: ms =>
    indent level ++ stringChars k ++ ':' :: ' ' :: prettyChars level v ++
      ',' :: '\n' :: prettyMembers level ms

end

def compact (v : Json) : String :=
  String.ofList v.compactChars

def pretty (v : Json) : String :=
  String.ofList (v.prettyChars 0)

end Workyard.Json
