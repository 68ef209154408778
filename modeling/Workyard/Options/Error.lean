import Workyard.Json.Basic

/-!
# Faults in option texts

Why the options of a marker call could not be read. Every fault carries the byte offset of
what is at fault in the text that was being read.
-/

namespace Workyard.Options

set_option autoImplicit false

/-- What a script may hold and an option literal may not. -/
inductive Construct where
  | identifier | spread | call | parentheses | function | regex | expression
  | property | shorthand | method | computedKey | propertyKey
  | hole | unary | substitution
  deriving DecidableEq, Repr

def Construct.name : Construct → String
  | identifier => "identifier reference"
  | spread => "spread element"
  | call => "call expression"
  | parentheses => "parenthesized expression"
  | function => "function"
  | regex => "regular expression"
  | expression => "expression"
  | property => "property"
  | shorthand => "shorthand property"
  | method => "method definition"
  | computedKey => "computed property key"
  | propertyKey => "property key"
  | hole => "array hole"
  | unary => "unary expression"
  | substitution => "template substitution"

inductive OptionError where
  /-- The text is no script. -/
  | broken (offset : Nat)
  /-- The text is more than one value, or none. -/
  | trailingText (offset : Nat)
  /-- The value is no object. -/
  | notAnObject (found : Json.Shape) (offset : Nat)
  | unsupported (construct : Construct) (offset : Nat)
  | invalidNumber (text : String) (offset : Nat)
  /-- A marker call that does not parse. -/
  | malformedCall (callee : String) (offset : Nat)
  deriving DecidableEq, Repr

namespace OptionError

def offset : OptionError → Nat
  | broken n | trailingText n | notAnObject _ n | unsupported _ n | invalidNumber _ n
  | malformedCall _ n => n

/-- The same fault at another offset. -/
def move (change : Nat → Nat) : OptionError → OptionError
  | broken n => broken (change n)
  | trailingText n => trailingText (change n)
  | notAnObject found n => notAnObject found (change n)
  | unsupported construct n => unsupported construct (change n)
  | invalidNumber text n => invalidNumber text (change n)
  | malformedCall callee n => malformedCall callee (change n)

@[simp] theorem offset_move (change : Nat → Nat) (e : OptionError) :
    (e.move change).offset = change e.offset := by
  cases e <;> rfl

def shapeName : Json.Shape → String
  | .null => "null"
  | .boolean => "boolean"
  | .number => "number"
  | .string => "string"
  | .array => "array"
  | .object => "object"

def message : OptionError → String
  | broken n => "syntax error at offset " ++ n.repr
  | trailingText n =>
    "unexpected trailing text at offset " ++ n.repr ++ ", expected a single value"
  | notAnObject found n =>
    "unexpected " ++ shapeName found ++ " at offset " ++ n.repr ++ ", expected object literal"
  | unsupported construct n => "unsupported " ++ construct.name ++ " at offset " ++ n.repr
  | invalidNumber text n => "invalid number '" ++ text ++ "' at offset " ++ n.repr
  | malformedCall callee n =>
    "call to " ++ callee ++ "() at offset " ++ n.repr ++ " is malformed"

end OptionError

end Workyard.Options
