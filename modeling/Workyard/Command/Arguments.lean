/-!
# Command lines

A command line names a workspace, a command and the options of the command. An option may come
once before the command, where only the workspace may be named, and once after it. A word that
asks for the version or for help is answered as soon as it is met, and so is a word that does
not belong.
-/

namespace Workyard.Command

set_option autoImplicit false

inductive Task where
  | projects (json : Bool)
  | targets (project : String) (json : Bool)
  | migrate (project : Option String) (skipFormat dryRun : Bool)
  | diff (project : Option String) (skipFormat : Bool)
  deriving DecidableEq, Repr

inductive Invocation where
  | run (workspace : String) (task : Task)
  | version
  | help
  /-- The command line makes no sense. -/
  | misuse
  deriving DecidableEq, Repr

inductive Verb where
  | projects | targets | migrate | diff
  deriving DecidableEq, Repr

def Verb.ofText? : String → Option Verb
  | "projects" => some projects
  | "targets" => some targets
  | "migrate" => some migrate
  | "diff" => some diff
  | _ => none

inductive OptionName where
  | workspace | json | project | skipFormat | dryRun | version | help
  deriving DecidableEq, Repr

namespace OptionName

def text : OptionName → String
  | workspace => "workspace"
  | json => "json"
  | project => "project"
  | skipFormat => "skip-format"
  | dryRun => "dry-run"
  | version => "version"
  | help => "help"

def letter? : OptionName → Option Char
  | workspace => some 'w'
  | version => some 'V'
  | help => some 'h'
  | _ => none

def takesValue : OptionName → Bool
  | workspace | project => true
  | _ => false

/-- Whether a value will do. A workspace has a name. -/
def accepts (o : OptionName) (value : String) : Bool :=
  o ≠ workspace || !value.isEmpty

end OptionName

/-- The options that may come after a verb, or before any. -/
def admitted : Option Verb → List OptionName
  | none => [.workspace, .version, .help]
  | some .projects => [.workspace, .json, .help]
  | some .targets => [.workspace, .json, .help]
  | some .migrate => [.workspace, .project, .skipFormat, .dryRun, .help]
  | some .diff => [.workspace, .project, .skipFormat, .help]

/-- The options that were given, with their values. -/
abbrev Given := List (OptionName × String)

namespace Given

def value? (g : Given) (o : OptionName) : Option String :=
  (g.find? (·.1 = o)).map (·.2)

def has (g : Given) (o : OptionName) : Bool :=
  (value? g o).isSome

end Given

/-- What was read of a command line. -/
structure Reading where
  verb : Option Verb
  before : Given
  given : Given
  plain : List String
  /-- An option whose value comes next. -/
  pending : Option OptionName
  /-- All words from here on are plain. -/
  literal : Bool

namespace Reading

def start : Reading := ⟨none, [], [], [], none, false⟩

/-- An option with its value, which is empty for one that takes none. -/
def give (r : Reading) (o : OptionName) (value : String) : Except Invocation Reading :=
  match o with
  | .version => .error .version
  | .help => .error .help
  | _ =>
    if Given.has r.given o || !o.accepts value then .error .misuse
    else .ok { r with given := r.given ++ [(o, value)], pending := none }

/-- An option that is named, maybe with a value right after it. -/
def name (r : Reading) (o : OptionName) (attached : Option String) :
    Except Invocation Reading :=
  match attached, o.takesValue with
  | some value, true => r.give o value
  | some _, false => .error .misuse
  | none, true => .ok { r with pending := some o }
  | none, false => r.give o ""

/-- An option by its long name. -/
def long (r : Reading) (body : List Char) : Except Invocation Reading :=
  let text := String.ofList (body.takeWhile (· ≠ '='))
  let attached := match body.dropWhile (· ≠ '=') with
    | [] => none
    | _ :: value => some (String.ofList value)
  match (admitted r.verb).find? (·.text = text) with
  | some o => r.name o attached
  | none => .error .misuse

/-- What follows the letter of an option in the same word. -/
def attachedTo : List Char → Option String
  | [] => none
  | '=' :: value => some (String.ofList value)
  | value => some (String.ofList value)

/-- Options by their letters, of which one that takes a value is the last. -/
def letters (r : Reading) : List Char → Except Invocation Reading
  | [] => .ok r
  | c :: cs =>
    match (admitted r.verb).find? (·.letter? = some c) with
    | none => .error .misuse
    | some o =>
      if o.takesValue then r.name o (attachedTo cs)
      else
        match r.give o "" with
        | .error i => .error i
        | .ok r => letters r cs

/-- A word that is no option: the verb, or a project to show. -/
def word (r : Reading) (text : String) : Except Invocation Reading :=
  match r.verb with
  | none =>
    if r.literal then .error .misuse
    else if text = "help" then .error .help
    else
      match Verb.ofText? text with
      | some v => .ok { r with verb := some v, before := r.given, given := [] }
      | none => .error .misuse
  | some .targets =>
    if r.plain.isEmpty then .ok { r with plain := [text] } else .error .misuse
  | some _ => .error .misuse

def next (r : Reading) (text : String) : Except Invocation Reading :=
  match r.pending, r.literal, text.toList with
  | some o, _, cs =>
    if cs.head? = some '-' ∧ cs ≠ ['-'] then .error .misuse else r.give o text
  | none, true, _ => r.word text
  | none, false, ['-', '-'] => .ok { r with literal := true }
  | none, false, '-' :: '-' :: body => r.long body
  | none, false, '-' :: c :: cs => r.letters (c :: cs)
  | none, false, _ => r.word text

def task? (r : Reading) : Option Task :=
  match r.verb, r.plain with
  | none, _ => none
  | some .projects, _ => some (.projects (Given.has r.given .json))
  | some .targets, [p] => some (.targets p (Given.has r.given .json))
  | some .targets, _ => none
  | some .migrate, _ =>
    some (.migrate (Given.value? r.given .project) (Given.has r.given .skipFormat)
      (Given.has r.given .dryRun))
  | some .diff, _ =>
    some (.diff (Given.value? r.given .project) (Given.has r.given .skipFormat))

/-- The workspace: the last one that was named, or the current directory. -/
def workspace (r : Reading) : String :=
  ((Given.value? r.given .workspace).or (Given.value? r.before .workspace)).getD "."

def finish (r : Reading) : Invocation :=
  match r.pending, r.task? with
  | none, some t => .run r.workspace t
  | _, _ => .misuse

def all : Reading → List String → Invocation
  | r, [] => r.finish
  | r, a :: as =>
    match r.next a with
    | .ok r => all r as
    | .error i => i

end Reading

/-- What the words of a command line ask for. -/
def parseArguments (words : List String) : Invocation :=
  Reading.start.all words

end Workyard.Command
