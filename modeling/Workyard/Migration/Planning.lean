import Workyard.Migration.Error
import Workyard.Migration.Flag
import Workyard.Migration.Plan
import Workyard.Options.Marker
import Workyard.Options.Rebase
import Workyard.Text.Tidy
import Workyard.Webpack.Renderer
import Workyard.Workspace

/-!
# Planning a migration

Every target that runs the webpack executor is a candidate. It is migrated when its options
name a config file that is there, that no earlier candidate migrates, and that calls the first
marker; otherwise it is passed over. The verdicts on the candidates, in the order of projects
and targets, make the plan.
-/

namespace Workyard.Migration

set_option autoImplicit false

structure Request where
  /-- The only project to migrate, if there is one. -/
  project : Option String
  /-- Files are written just as they are rendered. -/
  skipFormat : Bool

structure Planner where
  disk : Disk
  root : FilePath
  settings : MigrateSettings
  request : Request
  renderer : Webpack.Renderer

inductive Outcome where
  | migrate (config legacy : FilePath) (content : String) (multipleMarkers : Bool)
  | skip (reason : SkipReason)
  deriving DecidableEq, Repr

structure Verdict where
  project : String
  target : String
  outcome : Outcome
  deriving DecidableEq, Repr

namespace Verdict

def migrated? (v : Verdict) : Option MigratedTarget :=
  match v.outcome with
  | .migrate config legacy _ multiple => some ⟨v.project, v.target, config, legacy, multiple⟩
  | .skip _ => none

def skipped? (v : Verdict) : Option SkippedTarget :=
  match v.outcome with
  | .migrate .. => none
  | .skip reason => some ⟨v.project, v.target, reason⟩

def rename? (v : Verdict) : Option Rename :=
  match v.outcome with
  | .migrate config legacy _ _ => some ⟨config, legacy⟩
  | .skip _ => none

def write? (v : Verdict) : Option FileWrite :=
  match v.outcome with
  | .migrate config _ content _ => some ⟨config, content⟩
  | .skip _ => none

def message (v : Verdict) : String :=
  match v.outcome with
  | .migrate config _ _ _ => "planned " ++ v.project ++ ":" ++ v.target ++ " (" ++ config.text ++ ")"
  | .skip reason => "skipping " ++ v.project ++ ":" ++ v.target ++ ": " ++ reason.text

end Verdict

namespace Planner

/-- Tidies a text that is to be written, if that is wanted, around what is kept. -/
def finish (pl : Planner) (content : String) (keep : Option String) : String :=
  if pl.request.skipFormat then content else Text.tidy content keep

def configName? (t : Target) : Option String :=
  (t.optionText? "webpackConfig").filter fun name => !Text.isBlank name

/-- The options of the app, with paths that are relative to the workspace. -/
def appOptions (pl : Planner) (p : Project) (e : Options.Extraction) :
    Options.Read (Option Json.Members) :=
  match e.app.argument with
  | none => .ok none
  | some argument =>
    argument.parse.map fun options =>
      some (Options.rebase (Options.pathKeysWith pl.settings.extraPathKeys) p.root options)

def migrate (pl : Planner) (p : Project) (path : FilePath) (e : Options.Extraction) :
    Except MigrationError Outcome :=
  match pl.appOptions p e with
  | .error fault => .error (.options path fault)
  | .ok options =>
    let name := path.fileName?.getD ""
    let context := Webpack.Context.make name options e.reactText
    match pl.renderer.renderConfig context with
    | .error fault => .error (.render fault)
    | .ok text =>
      .ok (.migrate path (path.withFileName context.legacyFileName)
        (pl.finish text e.reactText) (decide (1 < e.app.occurrences)))

def convert (pl : Planner) (p : Project) (path : FilePath) : Logged MigrationError Outcome := do
  let source ← .ofExcept ((pl.disk.readText path).mapError (.io path))
  match ← (Options.extract Options.MarkerNames.standard source).mapError (.options path) with
  | none => pure (.skip (.noMarker path))
  | some e => .ofExcept (pl.migrate p path e)

/-- What becomes of a candidate when the configs in `claimed` are migrated already. -/
def judge (pl : Planner) (claimed : List FilePath) (p : Project) (t : Target) :
    Logged MigrationError Outcome :=
  match configName? t with
  | none => pure (.skip .noWebpackConfig)
  | some name =>
    let path := pl.root.join ⟨name⟩
    if claimed.any (·.same path) then pure (.skip (.sharedConfig path))
    else if !pl.disk.isFile path then pure (.skip (.configNotFound path))
    else pl.convert p path

def isCandidate (pl : Planner) (t : Target) : Bool :=
  t.executor = some pl.settings.webpackExecutor

def claims (vs : List Verdict) : List FilePath :=
  (vs.filterMap Verdict.rename?).map (·.source)

/-- The verdicts on the targets of a project, after those in `before`. -/
def judgeAll (pl : Planner) (before : List Verdict) (p : Project) :
    List Target → Logged MigrationError (List Verdict)
  | [] => pure before
  | t :: ts =>
    if pl.isCandidate t then
      if p.usesAny pl.settings.incompatibleExecutors then .fail (.moduleFederation p.name)
      else do
        let outcome ← pl.judge (claims before) p t
        let v : Verdict := ⟨p.name, t.name, outcome⟩
        .debug v.message
        judgeAll pl (before ++ [v]) p ts
    else judgeAll pl before p ts

/-- The write of a project file in which the targets carry the flag. -/
def projectWrite (pl : Planner) (p : Project) (targets : List String) :
    Except MigrationError FileWrite :=
  match p.source with
  | none => .error (.noProjectFile p.name)
  | some path =>
    match pl.disk.readText path with
    | .error fault => .error (.io path fault)
    | .ok text =>
      match Json.parse text with
      | .error fault => .error (.json path fault)
      | .ok doc => .ok ⟨path, pl.finish (flagAll targets doc).pretty none⟩

structure Progress where
  verdicts : List Verdict
  projectWrites : List FileWrite

def isSelected (pl : Planner) (p : Project) : Bool :=
  match pl.request.project with
  | none => true
  | some name => p.name = name

def planProject (pl : Planner) (g : Progress) (p : Project) :
    Logged MigrationError Progress := do
  let verdicts ← pl.judgeAll g.verdicts p p.targets
  let own := verdicts.drop g.verdicts.length
  match own.filterMap Verdict.migrated? with
  | [] => pure { g with verdicts }
  | migrated =>
    let write ← .ofExcept (pl.projectWrite p (migrated.map (·.target)))
    pure ⟨verdicts, g.projectWrites ++ [write]⟩

def planProjects (pl : Planner) (g : Progress) :
    List Project → Logged MigrationError Progress
  | [] => pure g
  | p :: ps =>
    if pl.isSelected p then do
      let g ← pl.planProject g p
      planProjects pl g ps
    else planProjects pl g ps

/-- The plan that the verdicts make. The files of projects are written first. -/
def assemble (pl : Planner) (g : Progress) : Plan where
  root := pl.root
  migrated := g.verdicts.filterMap Verdict.migrated?
  skipped := g.verdicts.filterMap Verdict.skipped?
  renames := g.verdicts.filterMap Verdict.rename?
  writes := g.projectWrites ++ g.verdicts.filterMap Verdict.write?

def run (pl : Planner) (projects : List Project) : Logged MigrationError Plan := do
  let g ← pl.planProjects ⟨[], []⟩ projects
  let plan := pl.assemble g
  if plan.migrated.isEmpty then .fail .nothingToMigrate else pure plan

end Planner

/-- Plans the migration of a workspace that was loaded. -/
def plan (d : Disk) (w : Workspace) (settings : MigrateSettings) (request : Request) :
    Logged MigrationError Plan := do
  let renderer ← .ofExcept
    ((Webpack.Renderer.make d (settings.templateDir.map w.root.join)).mapError .render)
  (⟨d, w.root, settings, request, renderer⟩ : Planner).run w.projects

def loadedMessage (w : Workspace) : String :=
  "loaded " ++ w.projects.length.repr ++ " projects from " ++ w.root.text

def planAt (d : Disk) (root : FilePath) (request : Request) : Logged MigrationError Plan := do
  let settings ← .ofExcept ((Settings.load d root).mapError .load)
  let w ← (Workspace.load d root settings.ignore).mapError .load
  .debug (loadedMessage w)
  plan d w settings.migrate request

end Workyard.Migration
