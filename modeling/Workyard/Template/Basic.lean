/-!
# Templates

A template is a list of pieces: text, values to print, other templates to insert, and choices
between pieces. Rendering looks names up in a scope. A name without a value cannot be
printed, but counts as false where a choice asks for it.
-/

namespace Workyard.Template

set_option autoImplicit false

inductive Value where
  | text (text : String)
  | truth (value : Bool)
  | nothing
  deriving DecidableEq, Repr

namespace Value

def isTrue : Value → Bool
  | text s => !s.isEmpty
  | truth b => b
  | nothing => false

def shown : Value → String
  | text s => s
  | truth true => "true"
  | truth false => "false"
  | nothing => ""

end Value

/-- The values of the names that have one. -/
abbrev Scope := String → Option Value

inductive Term where
  | name (name : String)
  | quoted (text : String)
  | truth (value : Bool)
  deriving DecidableEq, Repr

def Term.value? (scope : Scope) : Term → Option Value
  | name n => scope n
  | quoted s => some (.text s)
  | truth b => some (.truth b)

def Term.holds (scope : Scope) (t : Term) : Bool :=
  ((t.value? scope).map (·.isTrue)).getD false

structure Expression where
  negated : Bool
  term : Term
  deriving DecidableEq, Repr

namespace Expression

def holds (scope : Scope) (e : Expression) : Bool :=
  if e.negated then !e.term.holds scope else e.term.holds scope

def value? (scope : Scope) (e : Expression) : Option Value :=
  if e.negated then some (.truth (!e.term.holds scope)) else e.term.value? scope

end Expression

inductive Piece where
  | text (text : String)
  | print (value : Expression)
  /-- Another template stands here. -/
  | insert (name : String)
  | choose (condition : Expression) (yes no : List Piece)

section Rendering

variable (scope : Scope) (inserted : String → Option String)

mutual

/-- The text of a piece, where `inserted` gives the texts of other templates. -/
def Piece.render : Piece → Option String
  | .text s => some s
  | .print e => (e.value? scope).map (·.shown)
  | .insert name => inserted name
  | .choose c yes no => if c.holds scope then renderAll yes else renderAll no

def renderAll : List Piece → Option String
  | [] => some ""
  | p :: ps =>
    match Piece.render p with
    | none => none
    | some s => (renderAll ps).map (s ++ ·)

end

end Rendering

end Template

structure Template where
  parent : Option String
  body : List Template.Piece

end Workyard
