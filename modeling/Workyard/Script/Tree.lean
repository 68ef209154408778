import Workyard.Text.Offset

/-!
# Syntax trees of scripts

A tree keeps every token and comment of the text it was read from, each at its mark, so that
a reader of the tree can name the place of whatever it does not understand. Text that fits
nowhere, and tokens that ought to be there and are not, are nodes of their own.
-/

namespace Workyard.Script

set_option autoImplicit false

open Workyard.Text

inductive Kind where
  | object | pair | shorthand | method | propertyName | privateName | computedKey
  | array | spread
  | string | template | substitution | fragment | escape
  | number | trueWord | falseWord | nullWord | undefinedWord | name | reserved
  | unary | update | binary | ternary | assignment | sequence | parenthesized
  | member | call | arguments | construction | function | regex | markup | classBody | other
  | parameters | statement | expressionStatement | program
  | punctuation | comment | htmlComment
  /-- A member `name = value` of an object, which only a destructuring pattern may have. -/
  | defaulted
  | missing | error
  deriving DecidableEq, Repr

/-- Nodes that only a text with a fault has. -/
def Kind.isFault : Kind → Bool
  | .missing | .error | .defaulted => true
  | _ => false

/-- Nodes that stand for something of their own, and not for a delimiter or an operator. -/
def Kind.isNamed : Kind → Bool
  | .punctuation | .missing => false
  | _ => true

/-- Nodes that a reader of the program looks at. -/
def Kind.isSignificant : Kind → Bool
  | .comment => false
  | k => k.isNamed

inductive Node (source : List Char) where
  | leaf (kind : Kind) (start : Mark source) (text : String)
  | branch (kind : Kind) (start stop : Mark source) (children : List (Node source))

namespace Node

variable {source : List Char}

def kind : Node source → Kind
  | leaf k _ _ => k
  | branch k _ _ _ => k

def start : Node source → Mark source
  | leaf _ m _ => m
  | branch _ m _ _ => m

def stop : Node source → Nat
  | leaf _ m text => m.offset + text.utf8ByteSize
  | branch _ _ m _ => m.offset

def children : Node source → List (Node source)
  | leaf _ _ _ => []
  | branch _ _ _ ns => ns

def text : Node source → String
  | leaf _ _ s => s
  | branch _ _ _ _ => ""

def significant (n : Node source) : List (Node source) :=
  n.children.filter (·.kind.isSignificant)

def span (n : Node source) : String :=
  String.ofList (slice source n.start.offset n.stop)

mutual

def hasFault : Node source → Bool
  | leaf k _ _ => k.isFault
  | branch k _ _ ns => k.isFault || anyFault ns

def anyFault : List (Node source) → Bool
  | [] => false
  | n :: ns => n.hasFault || anyFault ns

end

mutual

def firstFault? : Node source → Option Nat
  | leaf k m _ => if k.isFault then some m.offset else none
  | branch k m _ ns => if k.isFault then some m.offset else firstFaultOf? ns

def firstFaultOf? : List (Node source) → Option Nat
  | [] => none
  | n :: ns => n.firstFault? <|> firstFaultOf? ns

end

mutual

theorem hasFault_iff_firstFault? (n : Node source) : n.hasFault = n.firstFault?.isSome := by
  cases n with
  | leaf k m s => by_cases h : k.isFault <;> simp [hasFault, firstFault?, h]
  | branch k m m' ns =>
    by_cases h : k.isFault <;> simp [hasFault, firstFault?, h, anyFault_iff_firstFaultOf? ns]

theorem anyFault_iff_firstFaultOf? (ns : List (Node source)) :
    anyFault ns = (firstFaultOf? ns).isSome := by
  cases ns with
  | nil => rfl
  | cons n ns =>
    have h := hasFault_iff_firstFault? n
    have hs := anyFault_iff_firstFaultOf? ns
    cases hn : n.firstFault? <;> simp_all [anyFault, firstFaultOf?]

end

end Node

end Workyard.Script
