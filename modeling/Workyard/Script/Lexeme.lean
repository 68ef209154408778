/-!
# Lexemes of scripts

How far a token reaches. Each function looks at the characters ahead and gives the number of
characters of the token of its class that begins there, which is `0` when none does. Where
several lengths fit, the longest is meant.
-/

namespace Workyard.Script.Lexeme

set_option autoImplicit false

/-! ### White space and comments -/

/-- White space between tokens: the ASCII kinds, the Unicode space separators, the line and
paragraph separators, and three characters without width. -/
def isSpace (c : Char) : Bool :=
  let n := c.toNat
  (0x9 ≤ n && n ≤ 0xD) || n == 0x20 || n == 0xA0 || n == 0x1680 ||
  (0x2000 ≤ n && n ≤ 0x200B) || n == 0x2028 || n == 0x2029 || n == 0x202F ||
  n == 0x205F || n == 0x2060 || n == 0x3000 || n == 0xFEFF

def isLineEnd (c : Char) : Bool :=
  c == '\n' || c == '\u2028' || c == '\u2029'

def space (cs : List Char) : Nat :=
  (cs.takeWhile isSpace).length

/-- The number of characters up to and with the closing `*/`. -/
def blockCommentTail : List Char → Option Nat
  | '*' :: '/' :: _ => some 2
  | _ :: cs => (blockCommentTail cs).map (· + 1)
  | [] => none

def comment : List Char → Nat
  | '/' :: '/' :: cs => 2 + (cs.takeWhile fun c => !(isLineEnd c || c == '\r')).length
  | '/' :: '*' :: cs => ((blockCommentTail cs).map (· + 2)).getD 0
  | _ => 0

/-- A comment in the manner of HTML, which reaches to the end of its line. -/
def htmlComment : List Char → Nat
  | '<' :: '!' :: '-' :: '-' :: cs => 4 + (cs.takeWhile fun c => !isLineEnd c).length
  | '-' :: '-' :: '>' :: cs => 3 + (cs.takeWhile fun c => !isLineEnd c).length
  | _ => 0

/-! ### Words -/

def isHex (c : Char) : Bool :=
  c.isDigit || ('a' ≤ c && c ≤ 'f') || ('A' ≤ c && c ≤ 'F')

def isOctal (c : Char) : Bool :=
  '0' ≤ c && c ≤ '7'

def isBinary (c : Char) : Bool :=
  c == '0' || c == '1'

/-- Any character but controls, white space and the ASCII signs of the grammar; `$` and `_`
count as letters. -/
def isWordPart (c : Char) : Bool :=
  !(c.toNat ≤ 0x1F || isSpace c ||
    ":;\x60\x22\x27@#.,|^&<=>+-*/\\%?!~()[]\x7b\x7d".toList.contains c)

def isWordStart (c : Char) : Bool :=
  isWordPart c && !c.isDigit

/-- The escapes `\u` with four digits, or with any number of digits between braces. -/
def unicodeEscape : List Char → Nat
  | '\\' :: 'u' :: '\x7b' :: cs =>
    let digits := (cs.takeWhile isHex).length
    if 0 < digits && cs[digits]? == some '\x7d' then digits + 4 else 0
  | '\\' :: 'u' :: a :: b :: c :: d :: _ =>
    if isHex a && isHex b && isHex c && isHex d then 6 else 0
  | _ => 0

def wordTail : Nat → List Char → Nat
  | 0, _ => 0
  | _, [] => 0
  | fuel + 1, c :: cs =>
    if isWordPart c then 1 + wordTail fuel cs
    else
      let n := unicodeEscape (c :: cs)
      if n = 0 then 0 else n + wordTail fuel ((c :: cs).drop n)

def word : List Char → Nat
  | [] => 0
  | c :: cs =>
    if isWordStart c || unicodeEscape (c :: cs) != 0 then wordTail (cs.length + 1) (c :: cs) else 0

/-! ### Numbers -/

/-- The rest of a run of digits, in which a single `_` may stand between two digits. -/
def digitTail (isDigit : Char → Bool) : List Char → Nat
  | '_' :: d :: cs => if isDigit d then 2 + digitTail isDigit cs else 0
  | d :: cs => if isDigit d then 1 + digitTail isDigit cs else 0
  | [] => 0

def digits (isDigit : Char → Bool) : List Char → Nat
  | d :: cs => if isDigit d then 1 + digitTail isDigit cs else 0
  | [] => 0

def exponent : List Char → Nat
  | e :: s :: cs =>
    if e == 'e' || e == 'E' then
      if s == '+' || s == '-' then
        let n := digits Char.isDigit cs
        if n = 0 then 0 else n + 2
      else
        let n := digits Char.isDigit (s :: cs)
        if n = 0 then 0 else n + 1
    else 0
  | _ => 0

/-- Whether a run of digits may have a fraction or an exponent after it: a lone zero, or at
most one zero before the first other digit. -/
def isWholePart : List Char → Bool
  | ['0'] => true
  | '0' :: d :: _ => d.isDigit && d != '0'
  | d :: _ => d != '0'
  | [] => false

def fraction (cs : List Char) : Nat :=
  let n := digits Char.isDigit cs
  n + exponent (cs.drop n)

def decimal (cs : List Char) : Nat :=
  let n := digits Char.isDigit cs
  let after := cs.drop n
  if n = 0 then
    match cs with
    | '.' :: d :: ds => if d.isDigit then 1 + fraction (d :: ds) else 0
    | _ => 0
  else if isWholePart (cs.take n) && after.head? == some '.' then
    n + 1 + fraction (after.drop 1)
  else if isWholePart (cs.take n) && exponent after != 0 then
    n + exponent after
  else if after.head? == some 'n' then n + 1
  else n

/-- Digits after one of the marks `0x`, `0o` and `0b`. -/
def radixDigits (isDigit : Char → Bool) (cs : List Char) : Nat :=
  let n := digits isDigit cs
  if n = 0 then 1
  else if (cs.drop n).head? == some 'n' then n + 3
  else n + 2

def number : List Char → Nat
  | '0' :: m :: cs =>
    if m == 'x' || m == 'X' then radixDigits isHex cs
    else if m == 'o' || m == 'O' then radixDigits isOctal cs
    else if m == 'b' || m == 'B' then radixDigits isBinary cs
    else decimal ('0' :: m :: cs)
  | cs => decimal cs

/-! ### Quoted text -/

def escape : List Char → Nat
  | '\\' :: c :: cs =>
    if c == 'u' then unicodeEscape ('\\' :: c :: cs)
    else if c == 'x' then
      match cs with
      | a :: b :: _ => if isHex a && isHex b then 4 else 0
      | _ => 0
    else if isOctal c then 1 + ((c :: cs).take 3 |>.takeWhile isOctal).length
    else if (c == '\r' || c == '?') && (cs.head?.map isLineEnd).getD false then 3
    else 2
  | _ => 0

def fragment (quote : Char) (cs : List Char) : Nat :=
  (cs.takeWhile fun c => !(c == quote || c == '\\' || c == '\r' || c == '\n')).length

def templateFragment : List Char → Nat
  | '$' :: '\x7b' :: _ => 0
  | c :: cs => if c == '\x60' || c == '\\' then 0 else 1 + templateFragment cs
  | [] => 0

/-- The part of a regular expression up to and with the closing slash. -/
def regexTail (inClass : Bool) : List Char → Option Nat
  | [] => none
  | '\\' :: c :: cs => if c == '\n' then none else (regexTail inClass cs).map (· + 2)
  | c :: cs =>
    if c == '\n' || c == '\\' then none
    else if c == '/' && !inClass then some 1
    else if c == '[' then (regexTail true cs).map (· + 1)
    else if c == ']' then (regexTail false cs).map (· + 1)
    else (regexTail inClass cs).map (· + 1)

def regex : List Char → Nat
  | '/' :: cs =>
    match regexTail false cs with
    | some n => 1 + n + ((cs.drop n).takeWhile fun c => 'a' ≤ c && c ≤ 'z').length
    | none => 0
  | _ => 0

/-! ### Operators -/

def startsWith (s : String) (cs : List Char) : Bool :=
  s.toList.isPrefixOf cs

/-- The length of the first of `signs` that stands ahead. -/
def firstOf (signs : List String) (cs : List Char) : Nat :=
  match signs.find? (startsWith · cs) with
  | some s => s.length
  | none => 0

def assignment (cs : List Char) : Nat :=
  match cs with
  | '=' :: c :: _ => if c == '=' || c == '>' then 0 else 1
  | ['='] => 1
  | _ =>
    firstOf [">>>=", ">>=", "<<=", "**=", "&&=", "||=", "??=", "+=", "-=", "*=", "/=", "%=",
      "^=", "&=", "|="] cs

/-- Signs between two operands, the words `in` and `instanceof` among them. -/
def binary (cs : List Char) : Nat :=
  if assignment cs != 0 then 0
  else if startsWith "++" cs || startsWith "--" cs || startsWith "=>" cs then 0
  else
    let w := cs.take (word cs)
    if w == "in".toList || w == "instanceof".toList then w.length
    else
      firstOf [">>>", "===", "!==", ">>", "<<", "==", "!=", "<=", ">=", "&&", "||", "??", "**",
        "<", ">", "+", "-", "*", "/", "%", "&", "|", "^"] cs

/-- The mark of a choice between two values; `?.` belongs to a member unless a digit
follows. -/
def choice : List Char → Nat
  | '?' :: '?' :: _ => 0
  | '?' :: '.' :: cs => if (cs.head?.map Char.isDigit).getD false then 1 else 0
  | '?' :: _ => 1
  | _ => 0

end Workyard.Script.Lexeme
