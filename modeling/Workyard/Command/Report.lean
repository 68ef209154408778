import Workyard.Migration.Run
import Workyard.Project.Display
import Workyard.Text.Table

/-!
# Reports

The texts that the commands print.
-/

namespace Workyard.Command

set_option autoImplicit false

def line (s : String) : String := s ++ "\n"

def lines (ls : List String) : String :=
  String.join (ls.map line)

/-- How a terminal shows a text. -/
structure Style where
  bold : String → String
  faint : String → String

def Style.plain : Style := ⟨id, id⟩

/-- Between the codes of a terminal that turn a way of showing on and off. -/
def within (code : String) (s : String) : String :=
  "\x1b[" ++ code ++ "m" ++ s ++ "\x1b[0m"

def Style.coloured : Style := ⟨within "1", within "90"⟩

/-- What is listed of a project. -/
structure ProjectRow where
  name : String
  root : String
  targets : Nat
  groups : Nat

namespace ProjectRow

def ofProject (p : Project) : ProjectRow :=
  ⟨p.name, p.root, p.targets.length,
    ((Grouping.ofProject p).groups.filter (!·.targets.isEmpty)).length⟩

def toJson (r : ProjectRow) : Json :=
  .object [("name", .string r.name), ("root", .string r.root),
    ("targets", DisplayTree.count r.targets), ("groups", DisplayTree.count r.groups)]

def cells (r : ProjectRow) : List String :=
  [r.name, r.root, r.targets.repr, r.groups.repr]

def titles : List String := ["project", "root", "targets", "groups"]

end ProjectRow

def projectsText (w : Workspace) (json : Bool) : String :=
  let rows := w.projects.map ProjectRow.ofProject
  if json then line (Json.array (rows.map (·.toJson))).pretty
  else if rows.isEmpty then line ("No projects found under " ++ w.root.text ++ ".")
  else Text.table ProjectRow.titles (rows.map (·.cells))

def itemText (style : Style) (indent : String) (i : DisplayItem) : String :=
  indent ++ i.target ++ "  " ++ style.faint (i.executor.getD "-") ++
    (if i.configurations.isEmpty then ""
    else "  [" ++ String.intercalate ", " i.configurations ++ "]")

def nodeLines (style : Style) (n : DisplayNode) : List String :=
  ("  " ++ style.bold n.heading.text ++ " " ++ style.faint ("(" ++ n.count.repr ++ ")")) ::
    n.items.map (itemText style "    ")

def treeLines (style : Style) : DisplayTree → List String
  | .flat [] => ["  no targets"]
  | .flat items => items.map (itemText style "  ")
  | .grouped nodes => nodes.flatMap (nodeLines style)

def targetsText (style : Style) (p : Project) (json : Bool) : String :=
  let tree := DisplayTree.present p (Grouping.ofProject p)
  if json then line tree.toJson.pretty
  else lines ((style.bold p.name ++ " (" ++ p.root ++ ")") :: treeLines style tree)

open Migration

def effectText (root : FilePath) : Effect → String
  | .written path => "  ✎  " ++ (FilePath.relativeTo root path).text
  | .wouldWrite path => "  ~  " ++ (FilePath.relativeTo root path).text
  | .renamed source target =>
    "  →  " ++ (FilePath.relativeTo root source).text ++ " -> " ++
      (FilePath.relativeTo root target).text
  | .wouldRename source target =>
    "  ~  " ++ (FilePath.relativeTo root source).text ++ " -> " ++
      (FilePath.relativeTo root target).text

def migrationText (root : FilePath) (r : Migration.Report) (dryRun : Bool) : String :=
  lines (((if dryRun then "[dry-run] " else "") ++ "✓ migrated " ++ r.migrated.length.repr ++
      " target(s), skipped " ++ r.skipped.length.repr) ::
    (r.migrated.map (fun t => "  " ++ t.project ++ ":" ++ t.target) ++
    r.skipped.map (fun t =>
      "  skipped " ++ t.project ++ ":" ++ t.target ++ " (" ++ t.reason.text ++ ")") ++
    r.effects.map (effectText root)))

/-- A text that ends its last line. -/
def ended (s : String) : String :=
  if s.toList.getLast? = some '\n' then s else line s

def diffText (diffs : List FileDiff) : String :=
  if diffs.isEmpty then line "No differences."
  else String.join (diffs.map fun d => ended d.diff)

/-- The lines of a text behind a label, those after the first one indented as far. -/
def labelled (label : String) (s : String) : String :=
  let indent := List.replicate label.length ' '
  label ++ String.ofList
    (Text.joinWith ('\n' :: indent) (Text.splitAt '\n' s.toList))

/-- The number of a cause, right-aligned. -/
def numberLabel (n : Nat) : String :=
  let digits := n.repr
  String.ofList (List.replicate (5 - digits.length) ' ') ++ digits ++ ": "

/-- The causes of a failure, with numbers if there are several. -/
def causesText : List String → String
  | [] => ""
  | [c] => "\n\nCaused by:\n" ++ labelled "    " c
  | cs => "\n\nCaused by:\n" ++ String.intercalate "\n"
    (cs.zipIdx.map fun (c, n) => labelled (numberLabel n) c)

def failureText (failure : String) (causes : List String) : String :=
  line ("Error: " ++ failure ++ causesText causes)

end Workyard.Command
