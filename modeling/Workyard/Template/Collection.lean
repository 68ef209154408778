import Workyard.Template.Reader

/-!
# Collections of templates

Templates by name, each of which may insert others and extend another. A template that
extends is rendered as the one at the end of the chain, which must be there.
-/

namespace Workyard.Template

set_option autoImplicit false

structure Collection where
  entries : List (String × Template)

namespace Collection

def get? (c : Collection) (name : String) : Option Template :=
  (c.entries.find? (·.1 = name)).map (·.2)

/-- The template at the end of the chain that a name begins, at most `fuel` long. -/
def topmost? (c : Collection) : Nat → String → Option Template
  | 0, _ => none
  | fuel + 1, name =>
    match c.get? name with
    | none => none
    | some t =>
      match t.parent with
      | none => some t
      | some parent => topmost? c fuel parent

/-- The template as which a name is rendered. No chain that ends is longer than the
collection. -/
def resolve? (c : Collection) (name : String) : Option Template :=
  c.topmost? c.entries.length name

/-- The collection of the texts, if all can be read and every chain ends. -/
def ofTexts (texts : List (String × String)) : Option Collection := do
  let entries ← texts.mapM fun (name, text) => (read text).map (name, ·)
  let c : Collection := ⟨entries⟩
  if entries.all fun e => (c.resolve? e.1).isSome then some c else none

/-- Renders pieces that insert templates at most `fuel` deep. -/
def renderWithin (c : Collection) (scope : Scope) : Nat → List Piece → Option String
  | 0, ps => renderAll scope (fun _ => none) ps
  | fuel + 1, ps =>
    renderAll scope (fun name => (c.get? name).bind fun t => renderWithin c scope fuel t.body) ps

def render (c : Collection) (name : String) (scope : Scope) : Option String :=
  (c.resolve? name).bind fun t => c.renderWithin scope c.entries.length t.body

end Collection

end Workyard.Template
