import Workyard.Json.Reader

/-!
# Scalars of YAML

A text is read as a strip of glyphs, each of which knows its column. Scalars that go over
several lines are folded: a line end becomes a space, and further ones stay.
-/

namespace Workyard.Yaml

set_option autoImplicit false

structure Glyph where
  char : Char
  column : Nat
  deriving DecidableEq, Repr

abbrev Strip := List Glyph

def layOut : Nat → List Char → Strip
  | _, [] => []
  | column, c :: cs => ⟨c, column⟩ :: layOut (if c = '\n' then 0 else column + 1) cs

/-- All line ends in one form. -/
def unifyLineEnds : List Char → List Char
  | '\r' :: '\n' :: cs => '\n' :: unifyLineEnds cs
  | c :: cs => (if c = '\r' || c = '\u0085' then '\n' else c) :: unifyLineEnds cs
  | [] => []

def isPrintable (c : Char) : Bool :=
  let n := c.toNat
  n = 0x9 || n = 0xA || n = 0xD || (0x20 ≤ n && n ≤ 0x7E) || n = 0x85 ||
    (0xA0 ≤ n && n ≤ 0xD7FF) || (0xE000 ≤ n && n ≤ 0xFFFD && n ≠ 0xFEFF) || 0x10000 ≤ n

/-- A text as a strip. A mark of the byte order may stand first; controls may not stand at
all. -/
def strip? (text : String) : Option Strip :=
  let cs :=
    match text.toList with
    | '\uFEFF' :: cs => cs
    | cs => cs
  if cs.all isPrintable then some (layOut 0 (unifyLineEnds cs)) else none

def isSpace (g : Glyph) : Bool := g.char = ' ' || g.char = '\t'

def atBlank : Strip → Bool
  | [] => true
  | g :: _ => isSpace g || g.char = '\n'

def atOne (chars : String) : Strip → Bool
  | [] => false
  | g :: _ => chars.toList.contains g.char

/-- Whether a line with the given mark of a document is ahead. -/
def atMark (mark : List Char) (s : Strip) : Bool :=
  (s.head?.any fun g => g.column = 0) && (s.take 3).map (·.char) = mark && atBlank (s.drop 3)

def atDocumentMark (s : Strip) : Bool :=
  atMark ['-', '-', '-'] s || atMark ['.', '.', '.'] s

/-- Passes over white space and comments, with the answer whether a line ended. Tabs count as
white space where `tabs` says so, and after a line end only in a flow. -/
def skip (flow tabs comment : Bool) : Strip → Bool × Strip
  | [] => (false, [])
  | g :: gs =>
    if g.char = '\n' then (true, (skip flow flow false gs).2)
    else if comment then skip flow tabs true gs
    else if g.char = ' ' || (tabs && g.char = '\t') then skip flow tabs false gs
    else if g.char = '#' then skip flow tabs true gs
    else (false, g :: gs)

/-- The text that stands for as many line ends. -/
def foldBreaks : Nat → List Char
  | 0 => []
  | 1 => [' ']
  | n + 2 => List.replicate (n + 1) '\n'

/-! ### Plain scalars -/

/-- Whether a plain scalar may begin here. -/
def startsPlain (flow : Bool) : Strip → Bool
  | [] => false
  | g :: gs =>
    if g.char = '-' then !atBlank gs
    else if g.char = '?' || g.char = ':' then !flow && !atBlank gs
    else !isSpace g && !",[]\x7b\x7d#&*!|>\x27\x22%@\x60\n".toList.contains g.char

/-- Characters of a plain scalar up to white space or its end. -/
def chunk (flow : Bool) : Strip → List Char × Strip
  | [] => ([], [])
  | g :: gs =>
    if isSpace g || g.char = '\n' then ([], g :: gs)
    else if g.char = ':' && (atBlank gs || (flow && atOne ",[]\x7b\x7d" gs)) then ([], g :: gs)
    else if flow && ",[]\x7b\x7d".toList.contains g.char then ([], g :: gs)
    else
      let (cs, rest) := chunk flow gs
      (g.char :: cs, rest)

/-- White space ahead: the spaces before any line end, the number of line ends, and what
follows. -/
def blanks : Strip → List Char × Nat × Strip
  | [] => ([], 0, [])
  | g :: gs =>
    if g.char = '\n' then
      let (_, n, rest) := blanks gs
      ([], n + 1, rest)
    else if isSpace g then
      let (cs, n, rest) := blanks gs
      (g.char :: cs, n, rest)
    else ([], 0, g :: gs)

/-- The rest of a plain scalar. It goes on in further lines where `lines` says so, as long as
they reach to the column `least`. -/
def plainTail (flow lines : Bool) (least : Nat) : Nat → Strip → List Char × Strip
  | 0, s => ([], s)
  | fuel + 1, s =>
    let (spaces, breaks, after) := blanks s
    match after with
    | [] => ([], s)
    | g :: _ =>
      if g.char = '#' || (0 < breaks && !lines) || (0 < breaks && !flow && g.column < least) ||
          (0 < breaks && atDocumentMark after) then ([], s)
      else
        let (cs, rest) := chunk flow after
        if cs.isEmpty then ([], s)
        else
          let (more, rest) := plainTail flow lines least fuel rest
          ((if breaks = 0 then spaces else foldBreaks breaks) ++ cs ++ more, rest)

def plain (flow lines : Bool) (least : Nat) (s : Strip) : List Char × Strip :=
  let (cs, rest) := chunk flow s
  let (more, rest) := plainTail flow lines least s.length rest
  (cs ++ more, rest)

/-! ### Quoted scalars -/

/-- White space within quotes that was read and not yet written. -/
inductive Gap where
  | spaces (cs : List Char)
  /-- Line ends, of which the first is folded or was escaped. -/
  | breaks (folded : Bool) (more : Nat)

def Gap.text : Gap → List Char
  | spaces cs => cs
  | breaks true 0 => [' ']
  | breaks _ more => List.replicate more '\n'

def Gap.addSpace (c : Char) : Gap → Gap
  | spaces cs => spaces (cs ++ [c])
  | g => g

def Gap.addBreak : Gap → Gap
  | spaces _ => breaks true 0
  | breaks folded more => breaks folded (more + 1)

def namedEscape? (c : Char) : Option Char :=
  match c with
  | '0' => some '\x00'
  | 'a' => some '\x07'
  | 'b' => some '\x08'
  | 't' | '\t' => some '\t'
  | 'n' => some '\n'
  | 'v' => some '\x0b'
  | 'f' => some '\x0c'
  | 'r' => some '\r'
  | 'e' => some '\x1b'
  | ' ' => some ' '
  | '\x22' => some '\x22'
  | '/' => some '/'
  | '\\' => some '\\'
  | 'N' => some '\u0085'
  | '_' => some '\u00A0'
  | 'L' => some '\u2028'
  | 'P' => some '\u2029'
  | _ => none

/-- How many digits the escape of a character by its number has. -/
def escapeDigits (c : Char) : Nat :=
  if c = 'x' then 2 else if c = 'u' then 4 else if c = 'U' then 8 else 0

def hexChar? (digits : List Char) : Option Char := do
  let ds ← digits.mapM Json.Reader.hexValue?
  let n := ds.foldl (fun n d => n * 16 + d) 0
  if n.isValidChar then some (Char.ofNat n) else none

/-- The text of a quoted scalar after its opening quote. -/
def quotedTail (double : Bool) : Nat → Gap → Strip → Option (List Char × Strip)
  | 0, _, _ => none
  | _, _, [] => none
  | fuel + 1, gap, g :: gs =>
    let write (cs : List Char) (rest : Strip) : Option (List Char × Strip) :=
      (quotedTail double fuel (.spaces []) rest).map fun more => (gap.text ++ cs ++ more.1, more.2)
    if atDocumentMark (g :: gs) then none
    else if g.char = '\n' then quotedTail double fuel gap.addBreak gs
    else if isSpace g then quotedTail double fuel (gap.addSpace g.char) gs
    else if g.char = (if double then '\x22' else '\x27') then
      match double, gs with
      | false, ⟨'\x27', _⟩ :: gs => write ['\x27'] gs
      | _, gs => some (gap.text, gs)
    else if double && g.char = '\\' then
      match gs with
      | [] => none
      | e :: gs =>
        if e.char = '\n' then
          (quotedTail double fuel (.breaks false 0) gs).map fun more =>
            (gap.text ++ more.1, more.2)
        else
          match namedEscape? e.char with
          | some c => write [c] gs
          | none =>
            let n := escapeDigits e.char
            if n = 0 || gs.length < n then none
            else
              match hexChar? ((gs.take n).map (·.char)) with
              | some c => write [c] (gs.drop n)
              | none => none
    else write [g.char] gs

def quoted (double : Bool) (s : Strip) : Option (List Char × Strip) :=
  quotedTail double (s.length + 1) (.spaces []) s

/-! ### Block scalars -/

/-- How the line ends at the close of a block scalar are kept. -/
inductive Chomping where
  | strip | clip | keep
  deriving DecidableEq

structure BlockHeader where
  chomping : Chomping
  /-- The indentation asked for, if any. -/
  indent : Nat

/-- The marks after the sign of a block scalar, up to the end of the line. -/
def blockHeader? : BlockHeader → Strip → Option (BlockHeader × Strip)
  | h, [] => some (h, [])
  | h, g :: gs =>
    if g.char = '-' && h.chomping = .clip then blockHeader? { h with chomping := .strip } gs
    else if g.char = '+' && h.chomping = .clip then blockHeader? { h with chomping := .keep } gs
    else if '1' ≤ g.char && g.char ≤ '9' && h.indent = 0 then
      blockHeader? { h with indent := g.char.toNat - 48 } gs
    else
      let rest := (g :: gs).dropWhile isSpace
      match rest with
      | [] => some (h, [])
      | ⟨'\n', _⟩ :: rest => some (h, rest)
      | ⟨'#', _⟩ :: _ =>
        if isSpace g then some (h, (rest.dropWhile (·.char ≠ '\n')).drop 1) else none
      | _ => none

/-- Blank lines ahead: their number, and the strip from the first other one on, past the
indentation. -/
def blankLines (indent : Nat) : Strip → Nat × Strip
  | [] => (0, [])
  | g :: gs =>
    if g.char = '\n' then
      let (n, rest) := blankLines indent gs
      (n + 1, rest)
    else if g.char = ' ' && g.column < indent then blankLines indent gs
    else (0, g :: gs)

/-- The column of the first line that is not blank. -/
def firstColumn (s : Strip) : Nat :=
  ((s.dropWhile fun g => g.char = ' ' || g.char = '\n').head?.map (·.column)).getD 0

/-- The lines of a block scalar. `pending` are the line ends after the last line, and `deep`
says whether that line began with white space. -/
def blockLines (folded : Bool) (indent : Nat) (chomping : Chomping) :
    Nat → Bool → Bool → Nat → Strip → List Char × Strip
  | 0, _, _, _, s => ([], s)
  | fuel + 1, first, deep, pending, s =>
    let ended :=
      match s with
      | [] => true
      | g :: _ => g.column ≠ indent || (indent = 0 && atDocumentMark s)
    if ended then
      (List.replicate
        (match chomping with
        | .strip => 0
        | .clip => if first then 0 else min 1 pending
        | .keep => pending) '\n', s)
    else
      let isDeep := (s.head?.map isSpace).getD false
      let gap :=
        if first then List.replicate pending '\n'
        else if folded && !deep && !isDeep then foldBreaks pending
        else List.replicate pending '\n'
      let line := s.takeWhile (·.char ≠ '\n')
      let rest := s.dropWhile (·.char ≠ '\n')
      let (n, after) := blankLines indent (rest.drop 1)
      let (more, rest) :=
        blockLines folded indent chomping fuel false isDeep
          (if rest.isEmpty then 0 else n + 1) after
      (gap ++ line.map (·.char) ++ more, rest)

/-- A block scalar after its sign. Its lines stand at the column `least` or further in. -/
def blockScalar (folded : Bool) (least : Nat) (s : Strip) : Option (List Char × Strip) := do
  let (h, s) ← blockHeader? ⟨.clip, 0⟩ s
  let indent :=
    if h.indent ≠ 0 then (if least = 0 then h.indent else least - 1 + h.indent)
    else max 1 (max least (firstColumn s))
  let (n, s) := blankLines indent s
  some (blockLines folded indent h.chomping (s.length + 1) true false n s)

end Workyard.Yaml
