import Workyard.Yaml.Basic
import Workyard.Yaml.Scalar

/-!
# Reading YAML

One document of block and flow collections with scalars of every style. A block is held
together by its column: what belongs to it stands further in. Values may be given names, and
tags, which say nothing here.
-/

namespace Workyard.Yaml

set_option autoImplicit false

/-- Where a value may stand, which decides whether a block may begin in the same line. -/
inductive Position where
  | top | afterMark | afterKey | afterDash
  deriving DecidableEq

/-- The position after the name and the tag of a value. -/
def Position.afterProperties : Position → Position
  | afterKey => afterKey
  | _ => afterMark

/-- Whether the colon after a key is ahead. -/
def atColon : Strip → Bool
  | ⟨':', _⟩ :: gs => atBlank gs
  | _ => false

def isQuote (g : Glyph) : Bool := g.char = '\x22' || g.char = '\x27'

/-! ### Names and tags -/

def isNamePart (g : Glyph) : Bool :=
  g.char.isAlphanum || g.char = '_' || g.char = '-'

def name? (s : Strip) : Option (String × Strip) :=
  let name := s.takeWhile isNamePart
  let rest := s.dropWhile isNamePart
  if name.isEmpty || !(atBlank rest || atOne "?:,]\x7d%@\x60" rest) then none
  else some (String.ofList (name.map (·.char)), rest)

/-- Passes over a name that a value is given here, and gives the name. -/
def anchor? : Strip → Option (Option String × Strip)
  | ⟨'&', _⟩ :: gs => (name? gs).map fun r => (some r.1, r.2.dropWhile isSpace)
  | s => some (none, s)

def isTagPart (flow : Bool) (g : Glyph) : Bool :=
  !isSpace g && g.char ≠ '\n' && !(flow && ",[]\x7b\x7d".toList.contains g.char)

/-- Passes over a tag. Tags with a handle of their own need a directive and are faults. -/
def skipTag? (flow : Bool) : Strip → Option Strip
  | ⟨'!', _⟩ :: gs =>
    if ((gs.takeWhile (isTagPart flow)).drop 1).any (·.char = '!') then none
    else some ((gs.dropWhile (isTagPart flow)).dropWhile isSpace)
  | s => some s

/-- Passes over the name and the tag before a value, in any order, and gives the name. -/
def properties? (flow : Bool) (s : Strip) : Option (Option String × Strip) := do
  let (name, s) ← anchor? s
  let s ← skipTag? flow s
  if name.isSome then some (name, s) else anchor? s

/-- The value under a name, if it is given one. A reference cannot be named again. -/
def named? (name : Option String) (v : Yaml) : Option Yaml :=
  match name, v with
  | _, .reference _ => none
  | some name, v => some (.anchor name v)
  | none, v => some v

def startsProperties (g : Glyph) : Bool := g.char = '&' || g.char = '!'

/-! ### Keys -/

/-- A scalar, or the name of a value, as a key. -/
def keyHead? (s : Strip) : Option (Yaml × Strip) :=
  match s with
  | [] => none
  | g :: gs =>
    if isQuote g then
      (quoted (g.char = '\x22') gs).map fun r => (Yaml.scalar (String.ofList r.1) false, r.2)
    else if g.char = '*' then (name? gs).map fun r => (Yaml.reference r.1, r.2)
    else if startsPlain false s then
      let r := plain false false 0 s
      some (Yaml.scalar (String.ofList r.1) true, r.2)
    else none

/-- A key within one line, up to and with its colon. -/
def key? (s : Strip) : Option (Yaml × Strip) := do
  let (name, rest) ← properties? false s
  let (k, rest) ← keyHead? rest
  let k ← if name.isSome then named? name k else some k
  let read := s.take (s.length - rest.length)
  let rest := rest.dropWhile isSpace
  if read.any (·.char = '\n') || !atColon rest then none else some (k, rest.drop 1)

/-- Whether the mark of a key that is written out stands ahead. -/
def atKeyMark : Strip → Bool
  | ⟨'?', _⟩ :: gs => atBlank gs
  | _ => false

/-! ### Values -/

mutual

def flowValue : Nat → Strip → Option (Yaml × Strip)
  | 0, _ => none
  | fuel + 1, s =>
    match (skip true true false s).2 with
    | [] => none
    | g :: gs =>
      if g.char = '[' then flowItems fuel [] gs
      else if g.char = '\x7b' then flowEntries fuel [] gs
      else if isQuote g then
        (quoted (g.char = '\x22') gs).map fun r => (.scalar (String.ofList r.1) false, r.2)
      else if g.char = '*' then (name? gs).map fun r => (.reference r.1, r.2)
      else if startsProperties g then do
        let (name, rest) ← properties? true (g :: gs)
        let (v, rest) ← flowValue fuel rest
        some (← named? name v, rest)
      else if startsPlain true (g :: gs) then
        let r := plain true true 0 (g :: gs)
        some (.scalar (String.ofList r.1) true, r.2)
      else if ",]\x7d".toList.contains g.char || atColon (g :: gs) then some (absent, g :: gs)
      else none

/-- A value in a flow with what a colon after it gives. -/
def flowPair : Nat → Strip → Option ((Yaml × Option Yaml) × Strip)
  | 0, _ => none
  | fuel + 1, s => do
    let s := (skip true true false s).2
    let (k, rest) ← flowValue fuel (if atKeyMark s then s.drop 1 else s)
    let isPlain :=
      match k with
      | .scalar _ plain => plain
      | _ => false
    match (skip true true false rest).2 with
    | ⟨':', _⟩ :: after =>
      if isPlain && !atBlank after then none
      else do
        let (v, rest) ← flowValue fuel after
        some ((k, some v), rest)
    | rest => some ((k, none), rest)

def flowItems : Nat → List Yaml → Strip → Option (Yaml × Strip)
  | 0, _, _ => none
  | fuel + 1, acc, s =>
    match (skip true true false s).2 with
    | [] => none
    | g :: gs =>
      if g.char = ']' then some (.sequence acc.reverse, gs)
      else if g.char = ',' then none
      else do
        let ((k, v?), rest) ← flowPair fuel (g :: gs)
        let item :=
          match v? with
          | some v => .mapping [(k, v)]
          | none => k
        match (skip true true false rest).2 with
        | ⟨',', _⟩ :: rest => flowItems fuel (item :: acc) rest
        | ⟨']', _⟩ :: rest => some (.sequence (item :: acc).reverse, rest)
        | _ => none

def flowEntries : Nat → List (Yaml × Yaml) → Strip → Option (Yaml × Strip)
  | 0, _, _ => none
  | fuel + 1, acc, s =>
    match (skip true true false s).2 with
    | [] => none
    | g :: gs =>
      if g.char = '\x7d' then some (.mapping acc.reverse, gs)
      else if g.char = ',' then none
      else do
        let ((k, v?), rest) ← flowPair fuel (g :: gs)
        let entry := (k, v?.getD absent)
        match (skip true true false rest).2 with
        | ⟨',', _⟩ :: rest => flowEntries fuel (entry :: acc) rest
        | ⟨'\x7d', _⟩ :: rest => some (.mapping (entry :: acc).reverse, rest)
        | _ => none

end

mutual

/-- A value that stands at the column `least` or further in; none at all is allowed. -/
def blockValue : Nat → Position → Nat → Strip → Option (Yaml × Strip)
  | 0, _, _, _ => none
  | fuel + 1, position, least, s =>
    let (crossed, t) := skip false (position = .afterKey || position = .afterMark) false s
    let opens := crossed || position = .top || position = .afterDash
    match t with
    | [] => some (absent, [])
    | g :: gs =>
      if atDocumentMark t then some (absent, t)
      else if g.char = '-' && atBlank gs then
        if least ≤ g.column then
          if opens then blockItems fuel g.column false [] t else none
        else if position = .afterKey && g.column + 1 = least then
          blockItems fuel g.column true [] t
        else some (absent, t)
      else if g.column < least then some (absent, t)
      else if opens && (atKeyMark t || (key? t).isSome) then blockEntries fuel g.column [] t
      else if g.char = '[' || g.char = '\x7b' then flowValue fuel t
      else if isQuote g then
        (quoted (g.char = '\x22') gs).map fun r => (.scalar (String.ofList r.1) false, r.2)
      else if g.char = '*' then (name? gs).map fun r => (.reference r.1, r.2)
      else if startsProperties g then do
        let (name, rest) ← properties? false t
        let (v, rest) ← blockValue fuel position.afterProperties least rest
        some (← named? name v, rest)
      else if g.char = '|' || g.char = '>' then
        (blockScalar (g.char = '>') least gs).map fun r =>
          (.scalar (String.ofList r.1) false, r.2)
      else if startsPlain false t then
        let r := plain false true least t
        some (.scalar (String.ofList r.1) true, r.2)
      else none

/-- The items of a block sequence at a column. One that stands right below the key of a
mapping ends where the next key begins. -/
def blockItems : Nat → Nat → Bool → List Yaml → Strip → Option (Yaml × Strip)
  | 0, _, _, _, _ => none
  | fuel + 1, column, belowKey, acc, s => do
    let (v, rest) ← blockValue fuel .afterDash (column + 1) (s.drop 1)
    let acc := v :: acc
    match (skip false false false rest).2 with
    | [] => some (.sequence acc.reverse, [])
    | g :: gs =>
      if atDocumentMark (g :: gs) || g.column < column then
        some (.sequence acc.reverse, g :: gs)
      else if column < g.column then none
      else if g.char = '-' && atBlank gs then blockItems fuel column belowKey acc (g :: gs)
      else if belowKey then some (.sequence acc.reverse, g :: gs)
      else none

/-- An entry of a block mapping at a column. A key after its mark may be any value; what
belongs to it then has a mark of its own. -/
def blockEntry : Nat → Nat → Strip → Option ((Yaml × Yaml) × Strip)
  | 0, _, _ => none
  | fuel + 1, column, s =>
    if atKeyMark s then do
      let (k, rest) ← blockValue fuel .afterDash (column + 1) (s.drop 1)
      match (skip false false false rest).2 with
      | g :: gs =>
        if g.column = column && atColon (g :: gs) then do
          let (v, rest) ← blockValue fuel .afterDash (column + 1) gs
          some ((k, v), rest)
        else some ((k, absent), g :: gs)
      | [] => some ((k, absent), [])
    else do
      let (k, rest) ← key? s
      let (v, rest) ← blockValue fuel .afterKey (column + 1) rest
      some ((k, v), rest)

def blockEntries : Nat → Nat → List (Yaml × Yaml) → Strip → Option (Yaml × Strip)
  | 0, _, _, _ => none
  | fuel + 1, column, acc, s => do
    let (entry, rest) ← blockEntry fuel column s
    let acc := entry :: acc
    match (skip false false false rest).2 with
    | [] => some (.mapping acc.reverse, [])
    | g :: gs =>
      if atDocumentMark (g :: gs) || g.column < column then
        some (.mapping acc.reverse, g :: gs)
      else if column < g.column then none
      else blockEntries fuel column acc (g :: gs)

end

/-- Passes over lines of directives. -/
def skipDirectives : Nat → Strip → Strip
  | 0, s => s
  | fuel + 1, s =>
    match (skip false false false s).2 with
    | ⟨'%', 0⟩ :: gs => skipDirectives fuel ((gs.dropWhile (·.char ≠ '\n')).drop 1)
    | s => s

def parse (text : String) : Option Yaml := do
  let s := skipDirectives text.length (← strip? text)
  let fuel := 6 * s.length + 8
  let (v, rest) ←
    if atMark ['-', '-', '-'] s then blockValue fuel .afterMark 0 (s.drop 3)
    else blockValue fuel .top 0 s
  let (v, _) ← v.expand []
  match (skip false false false rest).2 with
  | [] => some v
  | rest =>
    if atMark ['.', '.', '.'] rest && (skip false false false (rest.drop 3)).2.isEmpty then some v
    else none

end Workyard.Yaml
