import Workyard.Migration.Planning
import Workyard.Proofs.Json.Lines
import Workyard.Proofs.Json.ReadBack
import Workyard.Proofs.Migration.Flagging
import Workyard.Proofs.Migration.Keeping

/-!
# Project files

What a project file holds after the migration is its document with the flags set, printed. It reads
back as that document as far as its numbers do: one that is no integer is rounded when it is read,
so that it can come back as another number than the one that was written.
-/

namespace Workyard

set_option autoImplicit false

open Json

/-! ### Reading back -/

namespace Json

/-- Integers read back, so it is for the other numbers to tell whether a document does. -/
theorem reread_eq_self_iff (v : Json) :
    v.reread = v ↔ ∀ x, .real x ∈ v.numbers → (Number.real x).reread = .real x := by
  unfold reread
  rw [mapNumbers_eq_self_iff]
  constructor
  · intro h x hx
    exact h (.real x) hx
  · intro h n hn
    cases n with
    | integer i hi => exact Number.reread_integer i hi
    | real x => exact h x hn

end Json

namespace Migration

/-! ### The write -/

variable {pl : Planner} {p : Project} {path : FilePath} {text : String} {d : Json}

theorem Planner.finish_pretty (pl : Planner) (v : Json) :
    pl.finish v.pretty none = if pl.request.skipFormat then v.pretty else v.pretty ++ "\n" := by
  unfold finish
  rw [tidy_pretty]

theorem Planner.finish_ne_empty (pl : Planner) (v : Json) : pl.finish v.pretty none ≠ "" := by
  obtain ⟨c, cs, hcs, -⟩ := prettyChars_head 0 v
  rw [finish_pretty, pretty, hcs, ← String.toList_inj.ne]
  split <;> simp

theorem Planner.spells_finish {unique : Prop} (pl : Planner) {v : Json} (h : Fits Reader.maxDepth v) :
    ∃ rest, Spells unique Reader.maxDepth (.value v.reread) (pl.finish v.pretty none).toList rest ∧
      Reader.skipSpace rest = [] := by
  obtain ⟨hplain, hline⟩ := @spells_pretty unique v h
  rw [finish_pretty]
  split
  · exact ⟨[], hplain, rfl⟩
  · exact ⟨['\n'], hline, rfl⟩

theorem Planner.parse_finish (pl : Planner) {v : Json} (h : Fits Reader.maxDepth v) :
    Json.parse (pl.finish v.pretty none) = .ok v.reread :=
  parse_eq_ok_iff.mpr (pl.spells_finish h)

/-- A project file is rewritten with its flags and nothing else. -/
theorem projectWrite_flags (hsource : p.source = some path)
    (hread : pl.disk.readText path = .ok text) (hparse : Json.parse text = .ok d)
    (ts : List String) : ∃ content d',
      pl.projectWrite p ts = .ok ⟨path, content⟩ ∧
      (∀ ts', ts'.Perm ts → pl.projectWrite p ts' = .ok ⟨path, content⟩) ∧
      Flagged ts d d' ∧
      content = (if pl.request.skipFormat then d'.pretty else d'.pretty ++ "\n") ∧
      Json.parse content = .ok d'.reread ∧
      (Json.parse content = .ok d' ↔
        ∀ x, .real x ∈ d'.numbers → (Number.real x).reread = .real x) := by
  have hwrite : ∀ ts, pl.projectWrite p ts = .ok ⟨path, pl.finish (flagAll ts d).pretty none⟩ :=
    fun ts => Planner.projectWrite_eq_ok.mpr ⟨text, d, hsource, hread, hparse, rfl⟩
  have hback := Planner.parse_finish pl (fits_flagAll ts (fits_of_parse hparse))
  refine ⟨pl.finish (flagAll ts d).pretty none, flagAll ts d, hwrite ts, fun ts' hperm => ?_,
    flagged_flagAll ts d, Planner.finish_pretty pl _, hback, ?_⟩
  · rw [hwrite ts', flagAll_perm hperm d]
  · rw [hback, Except.ok.injEq]
    exact reread_eq_self_iff _

/-! ### A number that does not read back -/

def tinyText : String :=
  "\x7b\"targets\":\x7b\"a\":\x7b\"options\":\x7b\"n\":1e-24\x7d\x7d\x7d\x7d"

def tinyPlanner : Planner where
  disk := ⟨.directory [("project.json", .file (.text tinyText))], []⟩
  root := ⟨""⟩
  settings := .standard
  request := ⟨none, true⟩
  renderer := ⟨⟨[]⟩⟩

def tinyProject : Project :=
  ⟨"tiny", "", some ⟨"project.json"⟩, [], List.nodup_nil⟩

def tinyPath : List String := ["targets", "a", "options", "n"]

theorem parse_tinyText : (Json.parse tinyText).toOption.map (fun d =>
    ((d.at? tinyPath).map compact, (d.reread.at? tinyPath).map compact)) =
      some (some "1.0000000000000001e-24", some "1e-24") := by
  decide +kernel

theorem parse_tiny : ∃ d, Json.parse tinyText = .ok d ∧
    (d.at? tinyPath).map compact = some "1.0000000000000001e-24" ∧
      (d.reread.at? tinyPath).map compact = some "1e-24" := by
  obtain ⟨d, hparse, htexts⟩ := Option.map_eq_some_iff.mp parse_tinyText
  obtain ⟨hfirst, hsecond⟩ := Prod.mk.inj htexts
  exact ⟨d, result_of_toOption hparse, hfirst, hsecond⟩

theorem projectWrite_flags_tiny : ∃ d content d',
    tinyProject.source = some ⟨"project.json"⟩ ∧
      tinyPlanner.disk.readText ⟨"project.json"⟩ = .ok tinyText ∧ Json.parse tinyText = .ok d ∧
        tinyPlanner.projectWrite tinyProject ["a"] = .ok ⟨⟨"project.json"⟩, content⟩ ∧
          Flagged ["a"] d d' ∧ Json.parse content = .ok d'.reread := by
  obtain ⟨d, hparse, -, -⟩ := parse_tiny
  obtain ⟨content, d', hwrite, -, hflagged, -, hback, -⟩ :=
    @projectWrite_flags tinyPlanner tinyProject _ _ _ rfl rfl hparse ["a"]
  exact ⟨d, content, d', rfl, rfl, hparse, hwrite, hflagged, hback⟩

/-- A number beside the flag reads back as another number. -/
theorem tiny_number_is_changed : ∃ d content back,
    Json.parse tinyText = .ok d ∧
      tinyPlanner.projectWrite tinyProject ["a"] = .ok ⟨⟨"project.json"⟩, content⟩ ∧
        Json.parse content = .ok back ∧
          (d.at? tinyPath).map compact = some "1.0000000000000001e-24" ∧
            (back.at? tinyPath).map compact = some "1e-24" ∧ back ≠ flagAll ["a"] d := by
  obtain ⟨d, hparse, hfirst, hsecond⟩ := parse_tiny
  have hread : tinyPlanner.disk.readText ⟨"project.json"⟩ = .ok tinyText := rfl
  have hwrite : tinyPlanner.projectWrite tinyProject ["a"] =
      .ok ⟨⟨"project.json"⟩, tinyPlanner.finish (flagAll ["a"] d).pretty none⟩ :=
    Planner.projectWrite_eq_ok.mpr ⟨tinyText, d, rfl, hread, hparse, rfl⟩
  have hback := Planner.parse_finish tinyPlanner (fits_flagAll ["a"] (fits_of_parse hparse))
  have hframe : (flagAll ["a"] d).at? tinyPath = d.at? tinyPath := by
    refine flagAll_frame fun t ht _ => ?_
    obtain rfl := List.mem_singleton.mp ht
    decide
  have hsecond' : ((flagAll ["a"] d).reread.at? tinyPath).map compact = some "1e-24" := by
    unfold reread at hsecond ⊢
    rw [at?_mapNumbers, hframe, ← at?_mapNumbers]
    exact hsecond
  refine ⟨d, _, _, hparse, hwrite, hback, hfirst, hsecond', fun hsame => ?_⟩
  rw [hsame, hframe, hfirst] at hsecond'
  exact absurd hsecond' (by decide)

end Migration

end Workyard
