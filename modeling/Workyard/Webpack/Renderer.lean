import Workyard.Disk.Basic
import Workyard.Template.Collection
import Workyard.Text.Lowercase
import Workyard.Text.Tidy
import Workyard.Webpack.Context
import Workyard.Webpack.Standard

/-!
# Rendering configs

The templates of a renderer are the standard one and those that a directory brings. A file of
the directory counts by its path in lower case, and takes the place of a template of that
name; of two such files the one with the greater path counts.
-/

namespace Workyard.Webpack

set_option autoImplicit false

inductive RenderError where
  /-- A template that cannot be read or rendered. -/
  | template
  | io (path : FilePath) (fault : Disk.Fault)
  deriving DecidableEq, Repr

namespace RenderError

def message : RenderError → String
  | template => "template engine error"
  | io path _ => "template io error at " ++ path.text

def cause : RenderError → String
  | template => "invalid template"
  | io _ fault => fault.message

def text (e : RenderError) : String :=
  e.message ++ ": " ++ e.cause

def chain (e : RenderError) : List String :=
  [e.text, e.cause]

end RenderError

structure Renderer where
  templates : Template.Collection

namespace Renderer

/-- The name of the template at a path: in lower case, with forward slashes. -/
def nameOf (path : String) : String :=
  Text.lower (String.ofList (path.toList.map fun c => if c = '\\' then '/' else c))

def templateExtension : String := "tera"

/-- A file below a directory: where it is, and its names from the directory on. -/
structure Override where
  path : FilePath
  name : String

/-- The template files below a directory, in the order of their paths. -/
def overrides (dir : FilePath) (e : Disk.Entry) : List Override :=
  let files := (e.walk fun _ => true).filterMap fun found =>
    match found with
    | (l, .file _) => some l
    | _ => none
  let found := files.map fun l =>
    (⟨l.foldl FilePath.child dir, nameOf (String.intercalate "/" l)⟩ : Override)
  (found.filter (·.path.extension? = some templateExtension)).mergeSort
    fun a b => a.path.le b.path

def readAll (d : Disk) : List Override → Except RenderError (List (String × String))
  | [] => .ok []
  | o :: os =>
    match d.readText o.path with
    | .error fault => .error (.io o.path fault)
    | .ok text => (readAll d os).map ((o.name, text) :: ·)

/-- Gives a name another text, in its place if it is there. -/
def replace (texts : List (String × String)) (entry : String × String) :
    List (String × String) :=
  if texts.any (·.1 = entry.1) then texts.map fun t => if t.1 = entry.1 then entry else t
  else texts ++ [entry]

def standardTexts : List (String × String) :=
  [(templateName, standardTemplate)]

/-- The texts of the templates that a directory brings; a missing one brings none. -/
def overridesIn (d : Disk) (dir : FilePath) : Except RenderError (List (String × String)) :=
  match d.entry dir with
  | .ok (.directory es) => readAll d (overrides dir (.directory es))
  | .ok (.file _) => .error (.io dir .notADirectory)
  | .error _ => .ok []

def templateTexts (d : Disk) : Option FilePath → Except RenderError (List (String × String))
  | none => .ok standardTexts
  | some dir => (overridesIn d dir).map fun found => found.foldl replace standardTexts

/-- The renderer with the templates of a directory, if one is given. -/
def make (d : Disk) (dir : Option FilePath) : Except RenderError Renderer :=
  match templateTexts d dir with
  | .error e => .error e
  | .ok texts =>
    match Template.Collection.ofTexts texts with
    | none => .error .template
    | some c => .ok ⟨c⟩

/-- The text of a template; no line of it ends with a carriage return before the feed. -/
def render (r : Renderer) (name : String) (c : Context) : Except RenderError String :=
  match r.templates.render name c.scope with
  | none => .error .template
  | some s => .ok (Text.withJoinedLineEnds s)

def renderConfig (r : Renderer) (c : Context) : Except RenderError String :=
  r.render templateName c

end Renderer

end Workyard.Webpack
