import Workyard.Proofs.Json.Lines
import Workyard.Proofs.Text.LineEnds
import Workyard.Webpack.Renderer

/-!
# The text of a standard config

The standard template has no tag in what it prints: the text of a config is what the template
says before the argument for React, the argument, and what it says after it. Neither side of the
argument has a blemish.
-/

namespace Workyard.Webpack

set_option autoImplicit false

open Template Text

/-! ### What the template says -/

namespace Standard

def imports : String :=
  "const \x7b NxAppWebpackPlugin \x7d = require('@nx/webpack/app-plugin');
const \x7b NxReactWebpackPlugin \x7d = require('@nx/react/webpack-plugin');
const \x7b nxUseLegacyPlugin \x7d = require('@nx/webpack');

// This file was migrated by conduit from your './"

def notice : String :=
  "'
// Please check that the options here are correct as they were moved from the old "

def noticeEnd : String :=
  " to this file."

def declaration : String :=
  "\nconst options = "

def plugins : String :=
  "

module.exports = async () => (\x7b
  plugins: ["

def withOptions : String :=
  "
    new NxAppWebpackPlugin(options),"

def withoutOptions : String :=
  "
    new NxAppWebpackPlugin(),"

def beforeReact : String :=
  "\n    "

def reactCall : String :=
  "new NxReactWebpackPlugin("

/-- The argument for React where none is forwarded. -/
def reactComment : String :=
  "\x7b
      // Uncomment this line if you don't want to use SVGR
      // See: https://react-svgr.com/
      // svgr: false
    \x7d"

def reactEnd : String :=
  "),"

def legacyCall : String :=
  "
    await nxUseLegacyPlugin(require('./"

def ending : String :=
  "'), options),
  ],
\x7d);"

def named (name : String) : Expression :=
  ⟨false, .name name⟩

def lexemes : List Lexeme := [
  .text imports.toList,
  .tag (.print (named "legacy_file_name")) false false,
  .text notice.toList,
  .tag (.print (named "config_file_name")) false false,
  .text (noticeEnd ++ declaration).toList,
  .tag (.print (named "options_json")) false false,
  .text (";" ++ plugins).toList,
  .tag (.opens (named "has_app_options")) true false,
  .text withOptions.toList,
  .tag .otherwise true false,
  .text withoutOptions.toList,
  .tag .closes true false,
  .text [],
  .tag (.opens (named "react_options")) true false,
  .text (beforeReact ++ reactCall).toList,
  .tag (.print (named "react_options")) false false,
  .text reactEnd.toList,
  .tag .otherwise true false,
  .text (beforeReact ++ reactCall ++ reactComment ++ reactEnd).toList,
  .tag .closes true false,
  .text legacyCall.toList,
  .tag (.print (named "legacy_module")) false false,
  .text (ending ++ "\n").toList]

def appChoice : Piece :=
  .choose (named "has_app_options") [.text withOptions] [.text withoutOptions]

def reactChoice : Piece :=
  .choose (named "react_options")
    [.text (beforeReact ++ reactCall), .print (named "react_options"), .text reactEnd]
    [.text (beforeReact ++ reactCall ++ reactComment ++ reactEnd)]

def body : List Piece := [
  .text imports,
  .print (named "legacy_file_name"),
  .text notice,
  .print (named "config_file_name"),
  .text (noticeEnd ++ declaration),
  .print (named "options_json"),
  .text (";" ++ plugins),
  appChoice,
  .text "",
  reactChoice,
  .text legacyCall,
  .print (named "legacy_module"),
  .text (ending ++ "\n")]

set_option maxRecDepth 4000 in
theorem lexemes_standardTemplate :
    (Lexeme.all? standardTemplate.toList).map (Lexeme.trim false) = some lexemes := by
  have hlines : standardTemplate.toList = standardLines.flatMap (·.toList ++ ['\n']) := by
    simp [standardTemplate, String.toList_join, List.flatMap_map]
  -- The characters of a literal are read off its own form: decoding its bytes would be slow.
  rw [hlines]
  simp only [standardLines, List.flatMap_cons, List.flatMap_nil, lexemes, imports, notice,
    noticeEnd, declaration, plugins, withOptions, withoutOptions, beforeReact, reactCall,
    reactComment, reactEnd, legacyCall, ending, String.toList_append]
  repeat rw [String.toList_ofList]
  decide

theorem read_standardTemplate : Template.read standardTemplate = some ⟨none, body⟩ := by
  obtain ⟨ls, hall, htrim⟩ := Option.map_eq_some_iff.mp lexemes_standardTemplate
  have hpieces : piecesOf lexemes = some body := by
    simp [lexemes, body, appChoice, reactChoice, piecesOf, Draft.ofLexemes, Draft.before, Draft.add,
      String.append_assoc]
  have hextended : extended? lexemes = none := by
    simp [lexemes, extended?]
  unfold Template.read
  rw [hall]
  simp [htrim, hpieces, hextended]

end Standard

def Renderer.standard : Renderer :=
  ⟨⟨[(templateName, ⟨none, Standard.body⟩)]⟩⟩

theorem Renderer.make_eq_ok {d : Disk} {dir : Option FilePath} {texts : List (String × String)}
    {c : Collection} (htexts : templateTexts d dir = .ok texts)
    (hc : Collection.ofTexts texts = some c) : Renderer.make d dir = .ok ⟨c⟩ := by
  unfold Renderer.make
  rw [htexts]
  simp only [hc]

theorem Renderer.make_none (d : Disk) : Renderer.make d none = .ok Renderer.standard := by
  have htexts : templateTexts d none = .ok standardTexts := rfl
  refine make_eq_ok htexts ?_
  unfold Collection.ofTexts standardTexts
  simp only [List.mapM_cons, Standard.read_standardTemplate]
  rfl

/-! ### The text of a config -/

namespace Context

/-- What a standard config says before the options are stated. -/
def heading (c : Context) : String :=
  Standard.imports ++ c.legacyFileName ++ Standard.notice ++ c.configFileName ++ Standard.noticeEnd

def statement (c : Context) : String :=
  Standard.declaration ++ c.optionsJson ++ ";"

/-- What it says between the options and the argument for React. -/
def middle (c : Context) : String :=
  Standard.plugins ++ (if c.hasAppOptions then Standard.withOptions else Standard.withoutOptions) ++
    Standard.beforeReact ++ Standard.reactCall

/-- What stands before the argument for React. -/
def before (c : Context) : String :=
  c.heading ++ c.statement ++ c.middle

def argument (c : Context) : String :=
  c.reactOptions.getD Standard.reactComment

/-- What it says after the argument for React. -/
def rest (c : Context) : String :=
  Standard.reactEnd ++ Standard.legacyCall ++ c.legacyModule ++ Standard.ending

variable {c : Context}

theorem value?_named {name : String} {v : Value} (h : c.scope name = some v) :
    (Standard.named name).value? c.scope = some v :=
  h

theorem holds_named {name : String} {v : Value} (h : c.scope name = some v) :
    (Standard.named name).holds c.scope = v.isTrue := by
  simp [Standard.named, Expression.holds, Term.holds, Term.value?, h]

variable (inserted : String → Option String)

theorem render_appChoice : Piece.render c.scope inserted Standard.appChoice =
    some (if c.hasAppOptions then Standard.withOptions else Standard.withoutOptions) := by
  have happ : c.scope "has_app_options" = some (.truth c.hasAppOptions) := rfl
  simp only [Standard.appChoice, Piece.render, holds_named happ, Value.isTrue, renderAll]
  split <;> simp

theorem render_reactChoice (h : c.reactOptions ≠ some "") :
    Piece.render c.scope inserted Standard.reactChoice =
      some (Standard.beforeReact ++ Standard.reactCall ++ c.argument ++ Standard.reactEnd) := by
  have hreact : c.scope "react_options" = some c.reactValue := rfl
  unfold argument
  simp only [Standard.reactChoice, Piece.render, holds_named hreact, value?_named hreact, renderAll]
  cases hoptions : c.reactOptions with
  | none => simp [reactValue, hoptions, Value.isTrue]
  | some t =>
    have ht : t ≠ "" := by
      rintro rfl
      exact h hoptions
    simp [reactValue, hoptions, Value.isTrue, Value.shown, ht, String.append_assoc]

theorem renderAll_body (h : c.reactOptions ≠ some "") :
    renderAll c.scope inserted Standard.body =
      some (c.before ++ c.argument ++ c.rest ++ "\n") := by
  have hlegacy : c.scope "legacy_file_name" = some (.text c.legacyFileName) := rfl
  have hname : c.scope "config_file_name" = some (.text c.configFileName) := rfl
  have hjson : c.scope "options_json" = some (.text c.optionsJson) := rfl
  have hmodule : c.scope "legacy_module" = some (.text c.legacyModule) := rfl
  simp only [Standard.body, renderAll, render_appChoice, render_reactChoice inserted h]
  simp only [Piece.render, value?_named hlegacy, value?_named hname, value?_named hjson,
    value?_named hmodule, Value.shown, Option.map_some]
  simp only [before, heading, statement, middle, rest, String.append_assoc, String.empty_append,
    String.append_empty]

theorem render_standard (h : c.reactOptions ≠ some "") :
    Renderer.standard.templates.render templateName c.scope =
      some (c.before ++ c.argument ++ c.rest ++ "\n") := by
  have hresolve : Renderer.standard.templates.resolve? templateName =
      some ⟨none, Standard.body⟩ := rfl
  unfold Collection.render
  rw [hresolve, Option.bind_some]
  exact renderAll_body _ h

/-! ### The sides of the argument -/

end Context

namespace Standard

def parts : List String :=
  [imports, notice, noticeEnd, declaration, ";", plugins, withOptions, withoutOptions, beforeReact,
    reactCall, reactComment, reactEnd, legacyCall, ending]

set_option maxRecDepth 4000 in
theorem neat_of_mem_parts {s : String} (h : s ∈ parts) : Neat s.toList := by
  have hclosed : ∀ cs ∈ parts.map (·.toList), hasBlemish cs = false ∧ '\r' ∉ cs := by
    simp only [parts, List.map_cons, List.map_nil, imports, notice, noticeEnd, declaration, plugins,
      withOptions, withoutOptions, beforeReact, reactCall, reactComment, reactEnd, legacyCall, ending]
    repeat rw [String.toList_ofList]
    decide
  exact neat_of_closed (hclosed _ (List.mem_map_of_mem h))

end Standard

namespace Context

variable {c : Context}

theorem neat_heading (hlegacy : Inline c.legacyFileName.toList)
    (hname : Inline c.configFileName.toList) : Neat c.heading.toList := by
  simp only [heading, String.toList_append]
  refine (((Neat.append ?_ hlegacy.neat ?_).append ?_ ?_).append hname.neat ?_).append ?_ ?_
  · exact Standard.neat_of_mem_parts (by simp [Standard.parts])
  · exact .inr (.inr hlegacy.no_feed)
  · exact Standard.neat_of_mem_parts (by simp [Standard.parts])
  · exact .inr (.inl (by decide))
  · exact .inr (.inr hname.no_feed)
  · exact Standard.neat_of_mem_parts (by simp [Standard.parts])
  · exact .inr (.inr (by decide))

theorem neat_statement (hjson : Firm c.optionsJson.toList)
    (hbegins : BeginsVisibly c.optionsJson.toList) : Neat c.statement.toList := by
  simp only [statement, String.toList_append]
  refine (Neat.append ?_ hjson.neat (.inr (.inl hbegins))).append ?_ (.inr (.inl (by decide)))
  · exact Standard.neat_of_mem_parts (by simp [Standard.parts])
  · exact Standard.neat_of_mem_parts (by simp [Standard.parts])

theorem neat_middle (c : Context) : Neat c.middle.toList := by
  simp only [middle, String.toList_append]
  refine ((Neat.append ?_ ?_ (.inl (by decide))).append ?_ (.inl ?_)).append ?_ ?_
  · exact Standard.neat_of_mem_parts (by simp [Standard.parts])
  · cases c.hasAppOptions <;> exact Standard.neat_of_mem_parts (by simp [Standard.parts])
  · exact Standard.neat_of_mem_parts (by simp [Standard.parts])
  · refine .append ?_ _
    cases c.hasAppOptions <;> decide
  · exact Standard.neat_of_mem_parts (by simp [Standard.parts])
  · exact .inr (.inl (by decide))

theorem neat_rest (hmodule : Inline c.legacyModule.toList) : Neat c.rest.toList := by
  simp only [rest, String.toList_append]
  refine ((Neat.append ?_ ?_ (.inl (by decide))).append hmodule.neat ?_).append ?_ ?_
  · exact Standard.neat_of_mem_parts (by simp [Standard.parts])
  · exact Standard.neat_of_mem_parts (by simp [Standard.parts])
  · exact .inr (.inr hmodule.no_feed)
  · exact Standard.neat_of_mem_parts (by simp [Standard.parts])
  · exact .inr (.inl (by decide))

theorem neat_before (hlegacy : Inline c.legacyFileName.toList)
    (hname : Inline c.configFileName.toList) (hjson : Firm c.optionsJson.toList)
    (hbegins : BeginsVisibly c.optionsJson.toList) : Neat c.before.toList := by
  simp only [before, String.toList_append]
  refine ((neat_heading hlegacy hname).append (neat_statement hjson hbegins) (.inl ?_)).append
    (neat_middle c) (.inl (.append ?_ _))
  · simp only [heading, String.toList_append]
    exact .append (by decide) _
  · simp only [statement, String.toList_append]
    exact .append (by decide) _

set_option maxRecDepth 4000 in
theorem beginsVisibly_before (c : Context) : BeginsVisibly c.before.toList := by
  simp only [before, heading, String.toList_append, List.append_assoc]
  refine .append ?_ _
  rw [Standard.imports, String.toList_ofList]
  decide

theorem endsVisibly_rest (c : Context) : EndsVisibly c.rest.toList := by
  simp only [rest, String.toList_append]
  exact .append (by decide) _

end Context

end Workyard.Webpack
