import Workyard.Proofs.Migration.Failures
import Workyard.Proofs.Migration.Sharing
import Workyard.Proofs.Webpack.Quiet

/-!
# The second run

A config that was made from the standard template, with no argument for React to forward, is a script
without a fault, and nothing in it is read as a call of the marker: the texts and the keys of the
options stay texts and keys. The next run passes over the target that names it.
-/

namespace Workyard

set_option autoImplicit false

open Text Webpack

theorem Disk.isFile_of_readText {d : Disk} {p : FilePath} {content : String}
    (h : d.readText p = .ok content) : d.isFile p = true := by
  unfold readText at h
  unfold isFile
  cases hentry : d.entry p with
  | error fault => simp [hentry] at h
  | ok e =>
    cases e with
    | directory => simp [hentry] at h
    | file => rfl

namespace Migration

/-- A config that is not migrated: it is a script without a fault that does not call the marker, so
that a run passes over every target that names it. -/
structure PassedOver (content : String) : Prop where
  parses : (Script.parse content.toList).hasFault = false
  unmarked : (Options.extract Options.MarkerNames.standard content).result = .ok none
  skipped : ∀ (pl : Planner) (p : Project) (t : Target) (config : String)
    (cs : List (Project × Target)) (before : List Verdict), pl.Judged [] cs before →
      Planner.configName? t = some config → pl.disk.readText (pl.configPath config) = .ok content →
        (pl.judge (Planner.claims before) p t).result = .ok (.skip (.noMarker (pl.configPath config)))

namespace Planner

variable {pl : Planner} {p : Project} {t : Target} {path : FilePath} {config content : String}
variable {before : List Verdict} {claimed : List FilePath} {cs : List (Project × Target)}

/-- A run has not claimed a config in which no marker is called, however its path is spelled. -/
theorem Judged.unclaimed (h : pl.Judged [] cs before) (hread : pl.disk.readText path = .ok content)
    (hextract : (Options.extract Options.MarkerNames.standard content).result = .ok none) :
    (claims before).any (·.same path) = false := by
  by_contra hclaimed
  obtain ⟨m, hm, hsame⟩ := (claimed_iff before).mp (by simpa using hclaimed)
  obtain ⟨_, _, _, source, e, _, _, _, _, hfile, hsource, hmarked⟩ := h.exists_source hm
  -- A path with the same components leads to the same file, and the claimed one calls the marker.
  have hplace := pl.disk.readText_of_place hfile (Disk.isFile_of_readText hread)
    (pl.disk.place_of_same hsame)
  rw [hsource, hread] at hplace
  obtain rfl := Except.ok.inj hplace
  simp [hmarked] at hextract

theorem judge_of_unmarked (h : configName? t = some config)
    (hclaimed : claimed.any (·.same (pl.configPath config)) = false)
    (hread : pl.disk.readText (pl.configPath config) = .ok content)
    (hextract : (Options.extract Options.MarkerNames.standard content).result = .ok none) :
    (pl.judge claimed p t).result = .ok (.skip (.noMarker (pl.configPath config))) := by
  have hfile := Disk.isFile_of_readText hread
  have hconvert : (pl.convert p (pl.configPath config)).result =
      .ok (.skip (.noMarker (pl.configPath config))) := by
    rw [result_convert, hread]
    simp only [hextract]
  unfold judge
  rw [h]
  simp only [configPath] at hclaimed hfile hconvert ⊢
  simp only [hclaimed, hfile, Bool.not_true, Bool.false_eq_true, if_false, hconvert]

end Planner

theorem passedOver_of_quiet {content : String} (h : Options.Quiet marker (Script.parse content.toList)) :
    PassedOver content where
  parses := h.sound.1
  unmarked := Options.extract_of_quiet h
  skipped _ _ _ _ _ _ hjudged hconfig hread :=
    Planner.judge_of_unmarked hconfig (hjudged.unclaimed hread (Options.extract_of_quiet h)) hread
      (Options.extract_of_quiet h)

variable {name : String} {options : Option Json.Members}

theorem render_make (name : String) (options : Option Json.Members) :
    Renderer.standard.renderConfig (.make name options none) =
      .ok (withJoinedLineEnds ((Context.make name options none).before ++ Standard.reactComment ++
        (Context.make name options none).rest ++ "\n")) := by
  have hrender := Context.render_standard (c := .make name options none) nofun
  simp only [Renderer.renderConfig, Renderer.render, hrender]
  rfl

/-- Finishing a config without an argument for React changes nothing of it. -/
theorem Planner.finish_make (pl : Planner) (options : Option Json.Members)
    (hname : Inline name.toList) :
    (pl.finish (withJoinedLineEnds ((Context.make name options none).before ++ Standard.reactComment ++
      (Context.make name options none).rest ++ "\n")) none).toList =
      (Context.make name options none).before.toList ++ Standard.reactComment.toList ++
        ((Context.make name options none).rest.toList ++ ['\n']) := by
  obtain ⟨argument, hturns, hfinish⟩ := pl.finish_between (c := .make name options none) nofun
    (neat_before_make options none hname) (neat_rest_make options none hname)
  have hargument : argument = Standard.reactComment.toList :=
    hturns.eq_of_no_return neat_reactComment.no_return
  rw [hargument] at hfinish
  exact hfinish

theorem passedOver_finish_make (pl : Planner) (hname : Quotable name.toList)
    (hoptions : ∀ ms ∈ options, Options.Integral (.object ms)) :
    PassedOver (pl.finish (withJoinedLineEnds ((Context.make name options none).before ++
      Standard.reactComment ++ (Context.make name options none).rest ++ "\n")) none) := by
  obtain ⟨v, hjson⟩ := layout_optionsText hoptions
  rw [← optionsJson_make name options none] at hjson
  refine passedOver_of_quiet ?_
  rw [pl.finish_make options hname.inline]
  exact quiet_config (quotable_of_name hname fun _ => mem_legacyFileName) hname
    (quotable_of_name hname fun _ => mem_legacyModule) hjson

/-- The config that the standard template makes of options without floating-point numbers, with no
argument for React to forward, is passed over by the next run. It is the config that the planner
writes for such options. -/
theorem Planner.migrates_once (pl : Planner) {d : Disk}
    (hrenderer : Renderer.make d none = .ok pl.renderer) (hname : Quotable name.toList)
    (hoptions : ∀ ms ∈ options, Options.Integral (.object ms)) :
    ∃ text, pl.renderer.renderConfig (.make name options none) = .ok text ∧
      PassedOver (pl.finish text none) ∧
      ∀ (p : Project) (path : FilePath) (e : Options.Extraction), path.fileName?.getD "" = name →
        e.reactText = none → pl.appOptions p e = .ok options →
          pl.migrate p path e = .ok (.migrate path (path.withFileName (legacyFileName name))
            (pl.finish text none) (decide (1 < e.app.occurrences))) := by
  obtain hstandard : Renderer.standard = pl.renderer :=
    Except.ok.inj ((Renderer.make_none d).symm.trans hrenderer)
  refine ⟨_, hstandard ▸ render_make name options, passedOver_finish_make pl hname hoptions, ?_⟩
  intro p path e hpath hreact happ
  simp only [Planner.migrate, happ, hpath, hreact, ← hstandard, render_make]
  rfl

/-- Options that hold what would be calls of the marker if it were not in strings and keys. -/
def callingOptions : Json.Members := [
  ("withNx(", .string "'); withNx(\x7b\x7d);\u2028"),
  ("*/", .array [.object [("`$\x7bwithNx()\x7d`", .number (.integer (-1) (by decide)))], .null])]

theorem integral_callingOptions : Options.Integral (.object callingOptions) := by
  refine .object (List.forall_mem_cons.mpr ⟨.string _, List.forall_mem_singleton.mpr ?_⟩)
  have hinner : Options.Integral
      (.object [("`$\x7bwithNx()\x7d`", .number (.integer (-1) (by decide)))]) :=
    .object (List.forall_mem_singleton.mpr .number)
  exact .array (List.forall_mem_cons.mpr ⟨hinner, List.forall_mem_singleton.mpr .null⟩)

/-- A planner for a workspace in which the text is the only config. -/
def plannerWith (config : String) (skipFormat : Bool) : Planner where
  disk := ⟨.directory [("ws", .directory [("webpack.config.js", .file (.text config))])], []⟩
  root := ⟨"ws"⟩
  settings := .standard
  request := ⟨none, skipFormat⟩
  renderer := .standard

theorem migrates_once_callingOptions : Quotable "webpack.config.js".toList ∧
    (∀ ms ∈ some callingOptions, Options.Integral (.object ms)) ∧
    ∀ skipFormat,
      (∃ text, Renderer.standard.renderConfig
          (.make "webpack.config.js" (some callingOptions) none) = .ok text ∧
        ∀ (p : Project) (t : Target), Planner.configName? t = some "webpack.config.js" →
          ((plannerWith ((plannerWith "withNx()" skipFormat).finish text none) skipFormat).judge [] p
            t).result = .ok (.skip (.noMarker ⟨"ws/webpack.config.js"⟩))) ∧
      ∃ content, PassedOver content ∧ ∀ p : Project,
        (plannerWith "withNx()" skipFormat).migrate p ⟨"ws/webpack.config.js"⟩ ⟨⟨1, none⟩, none⟩ =
          .ok (.migrate ⟨"ws/webpack.config.js"⟩ ⟨"ws/webpack.config.old.js"⟩ content false) := by
  have hname : Quotable "webpack.config.js".toList := by decide
  have hoptions : ∀ ms ∈ some callingOptions, Options.Integral (.object ms) := by
    rintro ms ⟨⟩
    exact integral_callingOptions
  have hnone : ∀ ms ∈ (none : Option Json.Members), Options.Integral (.object ms) := nofun
  have hpath : (⟨"ws"⟩ : FilePath).join ⟨"webpack.config.js"⟩ = ⟨"ws/webpack.config.js"⟩ := by decide
  have hlegacy : (⟨"ws/webpack.config.js"⟩ : FilePath).withFileName (legacyFileName "webpack.config.js") =
      ⟨"ws/webpack.config.old.js"⟩ := by decide
  refine ⟨hname, hoptions, fun skipFormat => ⟨?_, ?_⟩⟩
  · obtain ⟨text, hrender, hover, -⟩ := Planner.migrates_once
      (plannerWith "withNx()" skipFormat) (Renderer.make_none ⟨.directory [], []⟩) hname hoptions
    refine ⟨text, hrender, fun p t hconfig => ?_⟩
    rw [← hpath]
    refine hover.skipped _ p t _ [] [] (.nil []) hconfig ?_
    show Disk.readText _ ((⟨"ws"⟩ : FilePath).join ⟨"webpack.config.js"⟩) = _
    rw [hpath]
    rfl
  · obtain ⟨text, -, hover, hmigrate⟩ := Planner.migrates_once
      (plannerWith "withNx()" skipFormat) (Renderer.make_none ⟨.directory [], []⟩) hname hnone
    refine ⟨_, hover, fun p => ?_⟩
    rw [← hlegacy]
    exact hmigrate p _ _ (by decide) rfl rfl

end Migration

end Workyard
