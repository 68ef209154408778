import Workyard.Template.Lexeme

/-!
# Reading templates

The lexemes are taken from the last to the first, so that the pieces after a tag are there
when it is read. A level is a choice whose beginning has not been reached.
-/

namespace Workyard.Template

set_option autoImplicit false

/-- A choice of which the end was read. -/
structure Level where
  /-- The pieces up to the next tag of the choice. -/
  body : List Piece
  /-- What stands if no condition so far does. -/
  otherwise : List Piece
  /-- Whether no other tag of the choice follows but its end. -/
  last : Bool

/-- The pieces read so far, with the choices that are open, the innermost first. -/
structure Draft where
  pieces : List Piece
  levels : List Level

namespace Draft

/-- Puts a piece in front of those read. -/
def add (p : Piece) : Draft → Draft
  | ⟨ps, []⟩ => ⟨p :: ps, []⟩
  | ⟨ps, l :: ls⟩ => ⟨ps, { l with body := p :: l.body } :: ls⟩

/-- The draft with a lexeme before all that was read. -/
def before (d : Draft) : Lexeme → Option Draft
  | .text cs => some (d.add (.text (String.ofList cs)))
  | .tag t _ _ =>
    match t, d.levels with
    | .comment, _ => some d
    | .print e, _ => some (d.add (.print e))
    | .insert name, _ => some (d.add (.insert name))
    | .closes, ls => some ⟨d.pieces, ⟨[], [], true⟩ :: ls⟩
    | .otherwise, ⟨body, _, true⟩ :: ls => some ⟨d.pieces, ⟨[], body, false⟩ :: ls⟩
    | .alternative c, ⟨body, no, _⟩ :: ls =>
      some ⟨d.pieces, ⟨[], [.choose c body no], false⟩ :: ls⟩
    | .opens c, ⟨body, no, _⟩ :: ls => some ((⟨d.pieces, ls⟩ : Draft).add (.choose c body no))
    | _, _ => none

def ofLexemes : List Lexeme → Option Draft
  | [] => some ⟨[], []⟩
  | l :: ls => (ofLexemes ls).bind (·.before l)

end Draft

def piecesOf (ls : List Lexeme) : Option (List Piece) :=
  match Draft.ofLexemes ls with
  | some ⟨ps, []⟩ => some ps
  | _ => none

/-- The name of the template that is extended, and the lexemes after the tag that says so.
Only comments and white space may come before it. -/
def extended? : List Lexeme → Option (String × List Lexeme)
  | .tag (.extend name) _ _ :: ls => some (name, ls)
  | .tag .comment _ _ :: ls => extended? ls
  | .text cs :: ls => if cs.all Lexeme.isTagSpace then extended? ls else none
  | _ => none

/-- White space at the start goes. -/
def dropSpace : List Lexeme → List Lexeme
  | .text cs :: ls => .text (Lexeme.skipSpace cs) :: ls
  | ls => ls

def read (text : String) : Option Template := do
  let ls ← Lexeme.all? text.toList
  let ls := Lexeme.trim false ls
  match extended? ls with
  | some (parent, ls) => some ⟨some parent, ← piecesOf (dropSpace ls)⟩
  | none => some ⟨none, ← piecesOf ls⟩

end Workyard.Template
