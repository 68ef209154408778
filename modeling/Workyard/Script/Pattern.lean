import Workyard.Script.Tree

/-!
# Destructuring patterns

Parameters and the targets of assignments are read as expressions first. Here an expression
is taken as a pattern: members with a default become ordinary, and what no pattern may hold
becomes a fault.
-/

namespace Workyard.Script

set_option autoImplicit false

open Workyard.Text

variable {source : List Char}

namespace Node

/-- Whether the node may stand on the left of a compound assignment. -/
def isReference : Node source → Bool
  | leaf .name _ _ => true
  | leaf .undefinedWord _ _ => true
  | branch .member _ _ _ => true
  | branch .parenthesized _ _ _ => true
  | _ => false

/-- Whether the node may stand on the left of `=`. -/
def isTarget (n : Node source) : Bool :=
  n.isReference || n.kind == .object || n.kind == .array

mutual

def toPattern : Node source → Node source
  | leaf k m s =>
    match k with
    | .name | .undefinedWord | .punctuation | .comment | .htmlComment | .shorthand
    | .missing | .error => leaf k m s
    | _ => branch .error m m [leaf k m s]
  | branch k a b ns =>
    match k with
    | .object | .array | .spread => branch k a b (toPatterns ns)
    | .pair => branch k a b (valueToPattern ns)
    | .defaulted => branch .other a b ns
    | .assignment | .member | .parenthesized | .error | .computedKey => branch k a b ns
    | _ => branch .error a b [branch k a b ns]

def toPatterns : List (Node source) → List (Node source)
  | [] => []
  | n :: ns => n.toPattern :: toPatterns ns

/-- The value of a pair is the last of its children. -/
def valueToPattern : List (Node source) → List (Node source)
  | [] => []
  | [n] => [n.toPattern]
  | n :: ns => n :: valueToPattern ns

end

/-- Values in parentheses, taken as the parameters of a function. -/
def toParameters : Node source → Node source
  | branch k a b ns => branch k a b (toPatterns ns)
  | n => n

/-- A function or class that stands as a statement. -/
def toStatement : Node source → Node source
  | branch k a b ns => if k.isFault then branch k a b ns else branch .statement a b ns
  | n => n

end Node

end Workyard.Script
