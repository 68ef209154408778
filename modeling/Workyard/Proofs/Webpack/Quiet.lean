import Workyard.Proofs.Options.ReadBack
import Workyard.Proofs.Options.Sentences
import Workyard.Proofs.Migration.Forwarding

/-!
# A standard config is quiet

The text of a standard config is a script without a fault that does not call the marker. The options
are one value in it, whatever stands in their strings and keys, and the name of the config stands in
comments and in one quoted string.
-/

namespace Workyard.Webpack

set_option autoImplicit false

open Options Script Script.Draft

/-- A text that ends neither a string in single quotes nor a line, and escapes nothing. -/
def Quotable (cs : List Char) : Prop :=
  ∀ c ∈ cs, c ∉ ['\x27', '\\', '\r', '\n', '\u2028', '\u2029']

instance : DecidablePred Quotable := fun cs =>
  inferInstanceAs (Decidable (∀ c ∈ cs, _))

variable {source w cs : List Char} {levels : Nat}

/-- The marker that is looked for in a config. -/
abbrev marker : String := MarkerNames.standard.primary

theorem Quotable.holds (h : Quotable cs) : ∀ c ∈ cs, Quote.single.Holds c := by
  intro c hc
  have hc := h c hc
  simp only [List.mem_cons, List.not_mem_nil, or_false, not_or] at hc
  exact ⟨by simp [Quote.char, hc], fun heq => absurd heq hc.2.2.2.1⟩

theorem Quotable.line (h : Quotable cs) : ∀ c ∈ cs, Lexeme.isLineEnd c = false ∧ c ≠ '\r' := by
  intro c hc
  have hc := h c hc
  simp only [List.mem_cons, List.not_mem_nil, or_false, not_or] at hc
  exact ⟨by simp [Lexeme.isLineEnd, hc], hc.2.2.1⟩

/-- A module that is required. -/
theorem chain_require (source : List Char) (h : Quotable cs) :
    Chain (Quiet marker : Node source → Prop) (cs.length + 14)
      ("require".toList ++ '(' :: '\x27' :: (cs ++ ['\x27', ')'])) := by
  have hargument : Form expression (Quiet marker : Node source → Prop) _ _ :=
    (chain_text h.holds).operand.expression
  have hend : Listed source marker .values false 1 ([] ++ [')']) := listed_end blank_nil
  have hlisted := listed_entry (l := .values) blank_nil hargument hend
  have hcall := chain_call (by decide : IsName "require".toList) (by decide) hlisted
  simpa using hcall

/-- The line that a plugin is taken from a module with. -/
theorem sentence_required (source : List Char) (hw : IsName w)
    (hmodifier : String.ofList w ∉ modifierWords) (h : Quotable cs) :
    Sentence source marker (cs.length + 31)
      ("const \x7b ".toList ++ w ++ " \x7d = require('".toList ++ cs ++ "');".toList) := by
  have hassignment := (form_assignment (chain_braced hw hmodifier)
    (chain_require source h).operand.expression).expression
  have hsentence := sentence_declaration hassignment
  simpa [Nat.add_comm, Nat.add_left_comm] using hsentence

/-- A document without floating-point numbers is one value of a script. -/
theorem form_document {v : Json} (h : Options.Layout (.value v) cs) :
    Form expression (Quiet marker : Node source → Prop) (8 * cs.length) cs where
  begins := begins_of_layout h
  leads hfuel hd hrest := by
    obtain ⟨n, ⟨-, hquiet⟩, hleads⟩ := found_of_layout h _ _ _ hfuel hd hrest
    exact ⟨n, hquiet marker, hleads⟩

/-- The statement of the options. -/
theorem sentence_options {v : Json} (h : Options.Layout (.value v) cs) :
    Sentence source marker (8 * cs.length + 10) ("const options = ".toList ++ cs ++ [';']) :=
  (sentence_declaration (form_assignment (chain_name_target (by decide : IsName "options".toList))
    (form_document h)).expression).congr (by omega) (by simp)

/-! ### The plugins -/

theorem blank_of_all {bs : List Char} (h : bs.all (fun b => b == ' ' || b == '\n') = true) :
    Blank bs := by
  intro b hb
  simpa using List.all_eq_true.mp h b hb

theorem form_options (source : List Char) :
    Form expression (Quiet marker : Node source → Prop) 8 "options".toList :=
  ((chain_name (by decide : IsName "options".toList)).imp fun n hn => by
    obtain ⟨m, rfl⟩ := hn
    exact .leaf rfl).operand.expression

/-- The arguments of the plugin of the app: the options where there are some. -/
theorem listed_appArguments (source : List Char) (given : Bool) : Listed source marker .values true 11
    ((if given then "options".toList else []) ++ [')']) := by
  have hend {first : Bool} : Listed source marker .values first 1 ([] ++ [')']) := listed_end blank_nil
  cases given with
  | false => exact hend.congr (by omega) rfl
  | true => exact (listed_entry (l := .values) blank_nil (form_options source) hend).congr (by omega) rfl

/-- The argument for React where none is forwarded is an object with comments in it. -/
theorem form_reactComment (source : List Char) :
    Form expression (Quiet marker : Node source → Prop) 7 Standard.reactComment.toList := by
  have hblank : Between ('\n' :: "    ".toList) := .blank (blank_of_all (by decide))
  have hline : Blank ('\n' :: "      ".toList) := blank_of_all (by decide)
  have hbetween := Between.comment
    (t := " Uncomment this line if you don't want to use SVGR".toList) hline
    (by rw [String.toList_ofList]; decide)
    (.comment (t := " See: https://react-svgr.com/".toList) hline
      (by rw [String.toList_ofList]; decide)
      (.comment (t := " svgr: false".toList) hline (by rw [String.toList_ofList]; decide) hblank))
  have hnone : Listed source marker .members true 1 _ := listed_none hbetween
  have hobject := (chain_object hnone).imp fun n hn => hn.2
  refine hobject.operand.expression.congr (by omega) ?_
  rw [Standard.reactComment]
  repeat rw [String.toList_ofList]
  simp only [Listing.closing, List.append_eq, List.cons_append, List.nil_append]

/-- The call that the moved config is used by. -/
theorem form_legacyCall (source : List Char) (h : Quotable cs) :
    Form operand (Quiet marker : Node source → Prop)
    (cs.length + 42) ("await nxUseLegacyPlugin(require('./".toList ++ cs ++ "'), options)".toList) := by
  have hmodule : Quotable ("./".toList ++ cs) :=
    List.forall_mem_append.mpr ⟨by decide, h⟩
  have hend : Listed source marker .values false 1 ([] ++ [')']) := listed_end blank_nil
  have hlisted := listed_entry (l := .values) blank_nil
    (chain_require source hmodule).operand.expression
    (listed_comma (listed_entry blank_one (form_options source) hend))
  have hcall := chain_call (by decide : IsName "nxUseLegacyPlugin".toList) (by decide) hlisted
  refine (form_awaited hcall.operand).congr ?_ ?_
  · simp only [List.length_append, show "./".toList.length = 2 by decide]
    omega
  · repeat rw [String.toList_ofList]
    simp only [List.append_assoc, List.cons_append, List.nil_append]

/-- The plugins of a config, and the calls that make them. -/
def pluginsText (given : Bool) (legacy : List Char) : List Char :=
  '[' :: ((if given then Standard.withOptions else Standard.withoutOptions).toList ++
    (Standard.beforeReact.toList ++ (Standard.reactCall.toList ++ (Standard.reactComment.toList ++
      (Standard.reactEnd.toList ++ (Standard.legacyCall.toList ++ (legacy ++
        "'), options),\n  ]".toList)))))))

theorem form_plugins (source : List Char) (given : Bool) (h : Quotable cs) :
    Form expression (Quiet marker : Node source → Prop) (cs.length + 110) (pluginsText given cs) := by
  have hend : Listed source marker .values false 1 ([] ++ [')']) := listed_end blank_nil
  have happ := chain_construction (by decide : IsName "NxAppWebpackPlugin".toList)
    (listed_appArguments source given)
  have hreact := chain_construction (by decide : IsName "NxReactWebpackPlugin".toList)
    (listed_entry (l := .values) blank_nil (form_reactComment source) hend)
  have hlast : Listed source marker .items true 1 (('\n' :: "  ".toList) ++ [']']) :=
    listed_end (blank_of_all (by decide))
  have hline : Blank ('\n' :: "    ".toList) := blank_of_all (by decide)
  have hlisted := listed_entry (l := .items) hline happ.operand.expression
    (listed_comma (listed_entry (l := .items) hline hreact.operand.expression
      (listed_comma (listed_entry (l := .items) hline (form_legacyCall source h).expression
        (listed_comma hlast)))))
  refine ((chain_array hlisted).imp fun n hn => hn.2).operand.expression.congr (by omega) ?_
  simp only [pluginsText, Standard.withOptions, Standard.withoutOptions, Standard.beforeReact,
    Standard.reactCall, Standard.reactEnd, Standard.legacyCall]
  -- The comment is long, and the same on both sides.
  generalize Standard.reactComment.toList = comment
  cases given
  all_goals
    simp only [Bool.false_eq_true, if_true, if_false]
    repeat rw [String.toList_ofList]
    simp only [List.append_assoc, List.cons_append, List.nil_append]

theorem sentence_exports (source : List Char) (given : Bool) (h : Quotable cs) :
    Sentence source marker (cs.length + 170)
      ("module.exports = async () => (\x7b\n  plugins: ".toList ++ pluginsText given cs ++
        ",\n\x7d);".toList) := by
  have hend : Listed source marker .members true 1 (['\n'] ++ ['\x7d']) :=
    listed_end (blank_of_all (by decide))
  have hpair := form_pair (by decide : IsName "plugins".toList) (by decide)
    (form_plugins source given h)
  have hline : Blank ('\n' :: "  ".toList) := blank_of_all (by decide)
  have hmembers := listed_entry (l := .members) hline hpair (listed_comma hend)
  have hparenthesized := chain_parenthesized (chain_object hmembers).operand.expression
  have hasync := form_async hparenthesized.operand.expression
  have hexports : Chain (QuietTarget marker : Node source → Prop) _ _ :=
    chain_member (by decide : IsName "module".toList) (by decide : IsName "exports".toList)
  have hassignment := form_assignment hexports hasync.expression
  have hsentence := sentence_member (by decide : IsName "module".toList) (by decide)
    (List.append_assoc _ _ _) (hassignment.expression.imp fun n hn => hn.2)
  refine hsentence.congr (by omega) ?_
  repeat rw [String.toList_ofList]
  simp only [List.append_assoc, List.cons_append, List.nil_append]

/-! ### The whole text -/

/-- The comments that name the config and the moved one. -/
theorem between_notices {legacy name : List Char} (hlegacy : Quotable legacy) (hname : Quotable name) :
    Between (['\n', '\n'] ++ '/' :: '/' ::
      (" This file was migrated by conduit from your './".toList ++ legacy ++ ['\x27'] ++ '\n' ::
        ([] ++ '/' :: '/' ::
          (" Please check that the options here are correct as they were moved from the old ".toList ++
            name ++ " to this file.".toList ++ '\n' :: [])))) := by
  have hquote : Lexeme.isLineEnd '\x27' = false ∧ '\x27' ≠ '\r' := by decide
  have hfeed : Blank ['\n'] := blank_of_all (by decide)
  refine .comment (blank_of_all (by decide)) ?_ (.comment hfeed ?_ (.blank hfeed))
  · refine List.forall_mem_append.mpr ⟨List.forall_mem_append.mpr ⟨?_, hlegacy.line⟩,
      List.forall_mem_singleton.mpr hquote⟩
    rw [String.toList_ofList]
    decide
  · refine List.forall_mem_append.mpr ⟨List.forall_mem_append.mpr ⟨?_, hname.line⟩, ?_⟩
    all_goals
      rw [String.toList_ofList]
      decide

namespace Standard

theorem imports_chars : imports.toList =
    ("const \x7b ".toList ++ "NxAppWebpackPlugin".toList ++ " \x7d = require('".toList ++
      "@nx/webpack/app-plugin".toList ++ "');".toList) ++ ('\n' ::
    ("const \x7b ".toList ++ "NxReactWebpackPlugin".toList ++ " \x7d = require('".toList ++
      "@nx/react/webpack-plugin".toList ++ "');".toList) ++ ('\n' ::
    ("const \x7b ".toList ++ "nxUseLegacyPlugin".toList ++ " \x7d = require('".toList ++
      "@nx/webpack".toList ++ "');".toList) ++ ('\n' :: '\n' :: '/' :: '/' ::
    " This file was migrated by conduit from your './".toList))) := by
  rw [imports]
  repeat rw [String.toList_ofList]
  rfl

theorem imports_head : ∃ cs, imports.toList = 'c' :: cs :=
  ⟨_, by rw [imports, String.toList_ofList]⟩

theorem notice_chars : notice.toList = '\x27' :: '\n' :: '/' :: '/' ::
    " Please check that the options here are correct as they were moved from the old ".toList := by
  rw [notice]
  repeat rw [String.toList_ofList]

theorem declaration_chars : declaration.toList = '\n' :: "const options = ".toList := by
  rw [declaration]
  repeat rw [String.toList_ofList]

theorem plugins_chars : plugins.toList = '\n' :: '\n' ::
    ("module.exports = async () => (\x7b\n  plugins: ".toList ++ ['[']) := by
  rw [plugins]
  repeat rw [String.toList_ofList]
  rfl

theorem ending_chars : ending.toList = "'), options),\n  ]".toList ++ ",\n\x7d);".toList := by
  rw [ending]
  repeat rw [String.toList_ofList]
  rfl

end Standard

section Config

variable {c : Context} {v : Json}

/-- The statements of a standard config, with the comments between them. -/
theorem statements_config (hlegacy : Quotable c.legacyFileName.toList)
    (hname : Quotable c.configFileName.toList) (hmodule : Quotable c.legacyModule.toList)
    (hjson : Options.Layout (.value v) c.optionsJson.toList) {fuel : Nat}
    (hfuel : 8 * c.optionsJson.toList.length + c.legacyModule.toList.length + 200 ≤ fuel) :
    Statements source marker fuel
      (c.before.toList ++ Standard.reactComment.toList ++ (c.rest.toList ++ ['\n'])) := by
  have happ := (sentence_required source (by decide : IsName "NxAppWebpackPlugin".toList)
    (by decide) (by decide : Quotable "@nx/webpack/app-plugin".toList)).congr (by decide : _ ≤ 200) rfl
  have hreact := (sentence_required source (by decide : IsName "NxReactWebpackPlugin".toList)
    (by decide) (by decide : Quotable "@nx/react/webpack-plugin".toList)).congr (by decide : _ ≤ 200) rfl
  have hplugin := (sentence_required source (by decide : IsName "nxUseLegacyPlugin".toList)
    (by decide) (by decide : Quotable "@nx/webpack".toList)).congr (by decide : _ ≤ 200) rfl
  have hline : Between ['\n'] := .blank (blank_of_all (by decide))
  have hlines : Between ['\n', '\n'] := .blank (blank_of_all (by decide))
  have hend : Statements source marker fuel ['\n'] := statements_end hline
  have hall := statements_cons (.blank blank_nil) happ (by omega)
    (statements_cons hline hreact (by omega) (statements_cons hline hplugin (by omega)
    (statements_cons (between_notices hlegacy hname) (sentence_options hjson) (by omega)
    (statements_cons hlines (sentence_exports source c.hasAppOptions hmodule) (by omega)
    hend))))
  refine Eq.subst (motive := Statements source marker fuel) ?_ hall
  simp only [Context.before, Context.heading, Context.statement, Context.middle, Context.rest,
    String.toList_append, Standard.imports_chars, Standard.notice_chars, Standard.declaration_chars,
    Standard.noticeEnd, Standard.plugins_chars, Standard.ending_chars, pluginsText, List.append_assoc,
    List.cons_append, List.nil_append]
  rfl

/-- A standard config without an argument for React is a quiet script. -/
theorem quiet_config (hlegacy : Quotable c.legacyFileName.toList)
    (hname : Quotable c.configFileName.toList) (hmodule : Quotable c.legacyModule.toList)
    (hjson : Options.Layout (.value v) c.optionsJson.toList) :
    Quiet marker
      (parse (c.before.toList ++ Standard.reactComment.toList ++ (c.rest.toList ++ ['\n']))) := by
  -- The levels that are given grow with the whole text, of which the options are a part.
  have hcomment : 9 ≤ Standard.reactComment.toList.length := by
    rw [Standard.reactComment, String.toList_ofList]
    simp only [List.length_cons]
    omega
  have hlength : c.optionsJson.toList.length + c.legacyModule.toList.length + 9 ≤
      (c.before.toList ++ Standard.reactComment.toList ++ (c.rest.toList ++ ['\n'])).length := by
    simp only [Context.before, Context.statement, Context.rest, String.toList_append,
      List.length_append]
    omega
  refine quiet_parse (statements_config hlegacy hname hmodule hjson (by omega)) ?_
  -- The text does not begin with the line that names an interpreter.
  obtain ⟨cs, himports⟩ := Standard.imports_head
  simp only [Context.before, Context.heading, String.toList_append, himports, List.cons_append]
  rfl

end Config

section Name

variable {name : String} {options : Option Json.Members}

theorem Quotable.inline (h : Quotable name.toList) : Text.Inline name.toList where
  no_return hc := h _ hc (by decide)
  no_feed hc := h _ hc (by decide)

theorem quotable_of_name {s : String} (hname : Quotable name.toList)
    (h : ∀ c ∈ s.toList, c ∈ name.toList ∨ c ∈ ".old".toList) : Quotable s.toList :=
  fun c hc => (h c hc).elim (hname c) fun hold =>
    (by decide : Quotable ".old".toList) c hold

theorem layout_optionsText (h : ∀ ms ∈ options, Integral (.object ms)) :
    ∃ v, Options.Layout (.value v) (optionsText options).toList := by
  cases options with
  | none =>
    have htext : (optionsText none).toList = '\x7b' :: ([] ++ ['\x7d']) := by decide
    exact ⟨.object [], htext ▸ .object (.noMember blank_nil)⟩
  | some ms =>
    refine ⟨.object ms, ?_⟩
    simp only [optionsText, Option.map_some, Option.getD_some, Json.pretty, String.toList_ofList]
    exact layout_prettyChars (h ms rfl) 0

end Name

end Workyard.Webpack
