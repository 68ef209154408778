import Workyard.Options.Cooking
import Workyard.Options.Error
import Workyard.Options.Number
import Workyard.Script.Grammar
import Workyard.Text.Blank

/-!
# Option literals

The values that a script may give as options: objects with plain keys, arrays, strings,
templates without substitutions, numbers with an optional sign, and the words `true`, `false`
and `null`. Comments are passed over. Anything else is refused where it stands, and the first
thing refused decides.
-/

namespace Workyard.Options

set_option autoImplicit false

open Script Text

variable {source : List Char}

abbrev Read (α : Type) := Except OptionError α

def refuse {α : Type} (construct : Construct) (n : Node source) : Read α :=
  .error (.unsupported construct n.start.offset)

def number (negative : Bool) (text : String) (offset : Nat) : Read Json.Number :=
  match number? negative text with
  | some n => .ok n
  | none => .error (.invalidNumber (if negative then "-" ++ text else text) offset)

def stringOf (n : Node source) : Read String :=
  match n.children.find? (·.kind = .substitution) with
  | some s => refuse .substitution s
  | none => .ok (cook (piecesOf n.children))

def keyOf (n : Node source) : Read String :=
  match n.kind with
  | .propertyName => .ok n.text
  | .string => stringOf n
  | .number => (number false n.text n.start.offset).map numericKey
  | .computedKey => refuse .computedKey n
  | _ => refuse .propertyKey n

/-- A number under a sign. No other operand and no other operator will do. -/
def signedOf (n : Node source) : Read Json :=
  match n.children.head?, n.children.getLast? with
  | some sign, some operand =>
    if (sign.text = "-" ∨ sign.text = "+") ∧ operand.kind = .number then
      (number (sign.text = "-") operand.text n.start.offset).map .number
    else refuse .unary n
  | _, _ => refuse .unary n

def constructOf : Kind → Construct
  | .name | .undefinedWord => .identifier
  | .spread => .spread
  | .call | .construction => .call
  | .parenthesized => .parentheses
  | .function => .function
  | .regex => .regex
  | _ => .expression

/-- Why a member of an object is refused that is no pair. -/
def memberConstructOf : Kind → Construct
  | .shorthand => .shorthand
  | .spread => .spread
  | .method => .method
  | _ => .property

mutual

def valueOf : Node source → Read Json
  | .leaf k m text =>
    match k with
    | .number => (number false text m.offset).map .number
    | .trueWord => .ok (.bool true)
    | .falseWord => .ok (.bool false)
    | .nullWord => .ok .null
    | k => .error (.unsupported (constructOf k) m.offset)
  | .branch k start stop ns =>
    match k with
    | .object => (membersOf [] ns).map .object
    | .array => (itemsOf true ns).map .array
    | .string | .template => (stringOf (.branch k start stop ns)).map .string
    | .unary => signedOf (.branch k start stop ns)
    | k => .error (.unsupported (constructOf k) start.offset)

/-- The members of an object after those in `acc`. -/
def membersOf (acc : Json.Members) : List (Node source) → Read Json.Members
  | [] => .ok acc
  | n :: ns =>
    if !n.kind.isSignificant then membersOf acc ns
    else
      match n with
      | .branch .pair start _ (key :: rest) => do
        let k ← keyOf key
        let v ← lastValueOf start rest
        membersOf (acc.set k v) ns
      | n => refuse (memberConstructOf n.kind) n

/-- The value of a pair, which is the last of the nodes after its key. -/
def lastValueOf (start : Mark source) : List (Node source) → Read Json
  | [] => .error (.unsupported .property start.offset)
  | [n] => valueOf n
  | _ :: ns => lastValueOf start ns

/-- The items of an array. A comma is out of place where an item is awaited. -/
def itemsOf (awaiting : Bool) : List (Node source) → Read (List Json)
  | [] => .ok []
  | n :: ns =>
    if n.kind = .comment then itemsOf awaiting ns
    else if n.kind = .punctuation then
      if n.text = "," then
        if awaiting then refuse .hole n else itemsOf true ns
      else itemsOf awaiting ns
    else do
      let v ← valueOf n
      let vs ← itemsOf false ns
      .ok (v :: vs)

end

/-- The node of the one value in parentheses that a script is, if it is that. -/
def soleValue? (root : Node source) : Option (Node source) :=
  match root.significant with
  | [statement] =>
    if statement.kind = .expressionStatement then
      match statement.significant with
      | inner :: _ =>
        if inner.kind = .parenthesized ∧ inner.start.offset = 0 ∧
            inner.stop = byteLength source then
          inner.significant.head?
        else none
      | [] => none
    else none
  | _ => none

/-- The value of a script in parentheses. -/
def enclosedValue (root : Node source) : Read Json :=
  match root.firstFault? with
  | some offset => .error (.broken offset)
  | none =>
    match soleValue? root with
    | some inner => valueOf inner
    | none => .error (.trailingText ((root.significant[1]?.map (·.start.offset)).getD 0))

/-- The text in parentheses, so that a brace opens an object. The line end before the closing
one ends a comment that the text may end with. -/
def enclosed (text : String) : List Char :=
  '(' :: text.toList ++ ['\n', ')']

/-- The value that a text spells. -/
def parseLiteral (text : String) : Read Json :=
  (enclosedValue (Script.parse (enclosed text))).mapError (·.move (· - 1))

def parseObject (text : String) : Read Json.Members := do
  match ← parseLiteral text with
  | .object ms => .ok ms
  | v =>
    let lead := byteLength text.toList - byteLength (trimLeft text.toList)
    .error (.notAnObject v.shape lead)

end Workyard.Options
