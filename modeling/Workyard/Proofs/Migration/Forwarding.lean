import Workyard.Migration.Planning
import Workyard.Proofs.Webpack.LegacyName
import Workyard.Proofs.Webpack.Standard

/-!
# What a new config forwards

The options and the argument for React stand in the new config as they are, whether it is tidied
or not. Tidying keeps the first occurrence of the argument. If that is not the argument itself, the
argument has no blemish, and neither has the rest of the config, so that nothing is lost.
-/

namespace Workyard

set_option autoImplicit false

open Text Webpack

namespace Text

/-- A text that is seen at both ends, with no return before a pair of return and feed. -/
structure Forwardable (t : List Char) : Prop where
  begins : BeginsVisibly t
  ends : EndsVisibly t
  no_return_before_pair : ¬ ['\r', '\r', '\n'] <:+: t

variable {pre t post : List Char}

theorem joinLineEnds_between (hpre : Neat pre) (hpost : Neat post) (hbegins : BeginsVisibly t)
    (hpostBegins : BeginsVisibly post) :
    joinLineEnds (pre ++ t ++ post) = pre ++ joinLineEnds t ++ post := by
  rw [joinLineEnds_append hpostBegins, joinLineEnds_append hbegins, hpre.joinLineEnds,
    hpost.joinLineEnds]

/-- A text that is kept stands between neat texts as it is, up to its line ends. -/
theorem tidyChars_between (hpre : Neat pre) (hpost : Neat (post ++ ['\n'])) (ht : Forwardable t)
    (hpreBegins : BeginsVisibly pre) (hpostBegins : BeginsVisibly post) (hends : EndsVisibly post) :
    tidyChars t (pre ++ joinLineEnds t ++ (post ++ ['\n'])) =
      pre ++ unixLines t ++ (post ++ ['\n']) := by
  have hunix : unixLines (pre ++ joinLineEnds t ++ (post ++ ['\n'])) =
      pre ++ unixLines t ++ (post ++ ['\n']) := by
    rw [unixLines_append (hpostBegins.append ['\n']), unixLines_append ht.begins.joinLineEnds,
      hpre.unixLines, hpost.unixLines, unixLines_joinLineEnds ht.no_return_before_pair]
  have hbody : unixLines (pre ++ joinLineEnds t ++ (post ++ ['\n'])) =
      pre ++ unixLines t ++ post ++ ['\n'] := by
    rw [hunix, List.append_assoc _ post]
  refine (tidyChars_of_keepsBlemishes ?_ hbody ?_ (hends.append _)).trans hunix
  · rw [hunix]
    exact keepsBlemishes_occurrence hpre.spotless hpost.spotless ht.begins.unixLines
      ht.ends.unixLines
  · rw [List.append_assoc]
    exact hpreBegins.append _

theorem tidyChars_neat {cs : List Char} (h : Neat (cs ++ ['\n'])) (hbegins : BeginsVisibly cs)
    (hends : EndsVisibly cs) : tidyChars [] (cs ++ ['\n']) = cs ++ ['\n'] := by
  have hunix := h.unixLines
  refine (tidyChars_of_keepsBlemishes ?_ hunix hbegins hends).trans hunix
  rw [hunix]
  exact h.spotless.keepsBlemishes _

end Text

namespace Webpack

/-- The options as a config states them. -/
def optionsText (options : Option Json.Members) : String :=
  (options.map fun ms => (Json.object ms).pretty).getD "\x7b\x7d"

variable (name : String) (options : Option Json.Members) (react : Option String)

theorem optionsJson_make : (Context.make name options react).optionsJson = optionsText options := by
  cases options <;> rfl

theorem optionsText_firm : Firm (optionsText options).toList := by
  cases options with
  | none =>
    have htext : (optionsText none).toList = ['\x7b'] ++ ['\x7d'] := by decide
    rw [htext]
    exact Json.firm_word ['\x7b'] (by simp) (by decide)
  | some ms =>
    simp only [optionsText, Option.map_some, Option.getD_some, Json.pretty, String.toList_ofList]
    exact Json.firm_prettyChars (.object ms) 0

theorem optionsText_beginsVisibly : BeginsVisibly (optionsText options).toList := by
  cases options with
  | none => exact ⟨'\x7b', ['\x7d'], rfl, by decide⟩
  | some ms =>
    simp only [optionsText, Option.map_some, Option.getD_some, Json.pretty, String.toList_ofList]
    cases ms with
    | nil => exact ⟨'\x7b', ['\x7d'], rfl, by decide⟩
    | cons m ms =>
      rw [Json.prettyChars]
      exact ⟨'\x7b', _, rfl, by decide⟩

section Sides

variable {name : String} {c : Char}

theorem inline_of_name {s : String} (hname : Inline name.toList)
    (h : ∀ c ∈ s.toList, c ∈ name.toList ∨ c ∈ ".old".toList) : Inline s.toList where
  no_return hc := (h _ hc).elim hname.no_return (by decide)
  no_feed hc := (h _ hc).elim hname.no_feed (by decide)

theorem neat_before_make (hname : Inline name.toList) :
    Neat (Context.make name options react).before.toList := by
  refine Context.neat_before ?_ hname ?_ ?_
  · exact inline_of_name hname fun _ => mem_legacyFileName
  · rw [optionsJson_make]
    exact optionsText_firm options
  · rw [optionsJson_make]
    exact optionsText_beginsVisibly options

theorem neat_rest_make (hname : Inline name.toList) :
    Neat (Context.make name options react).rest.toList :=
  Context.neat_rest (inline_of_name hname fun _ => mem_legacyModule)

end Sides

theorem neat_reactComment : Neat Standard.reactComment.toList :=
  Standard.neat_of_mem_parts (by simp [Standard.parts])

theorem forwardable_argument {c : Context} (h : ∀ t ∈ c.reactOptions, Forwardable t.toList) :
    Forwardable c.argument.toList := by
  unfold Context.argument
  cases hreact : c.reactOptions with
  | some t => exact h t hreact
  | none =>
    have hvisible : BeginsVisibly Standard.reactComment.toList ∧
        EndsVisibly Standard.reactComment.toList := by
      rw [Standard.reactComment, String.toList_ofList]
      decide
    exact ⟨hvisible.1, hvisible.2, fun hwithin =>
      neat_reactComment.no_return (hwithin.subset (by simp))⟩

end Webpack

namespace Migration

variable {c : Context}

/-- Of a config between whose neat sides the argument stands, finishing turns line ends of the
argument and does nothing else. -/
theorem Planner.finish_between (pl : Planner) (h : ∀ t ∈ c.reactOptions, Forwardable t.toList)
    (hbefore : Neat c.before.toList) (hrest : Neat c.rest.toList) : ∃ argument,
      TurnsLineEnds (!pl.request.skipFormat) c.argument.toList argument ∧
        (pl.finish (withJoinedLineEnds (c.before ++ c.argument ++ c.rest ++ "\n"))
          c.reactOptions).toList = c.before.toList ++ argument ++ (c.rest.toList ++ ['\n']) := by
  have hargument := forwardable_argument h
  have hends := c.endsVisibly_rest
  have hbegins := c.beginsVisibly_before
  have hrestBegins : BeginsVisibly c.rest.toList := by
    simp only [Context.rest, String.toList_append, List.append_assoc]
    exact .append (by decide) _
  have hlast : Neat (c.rest.toList ++ ['\n']) :=
    hrest.append (neat_of_closed (by decide)) (.inl hends)
  have hrendered : (withJoinedLineEnds (c.before ++ c.argument ++ c.rest ++ "\n")).toList =
      c.before.toList ++ joinLineEnds c.argument.toList ++ (c.rest.toList ++ ['\n']) := by
    rw [withJoinedLineEnds, String.toList_ofList, ← joinLineEnds_between hbefore hlast
      hargument.begins (hrestBegins.append _)]
    simp only [String.toList_append, List.append_assoc]
    rfl
  unfold Planner.finish
  cases pl.request.skipFormat with
  | true => exact ⟨_, turnsLineEnds_joinLineEnds _, hrendered⟩
  | false =>
    refine ⟨_, turnsLineEnds_unixLines _, ?_⟩
    rw [if_neg Bool.false_ne_true, tidy, String.toList_ofList, hrendered]
    cases hreact : c.reactOptions with
    | some t =>
      have ht : c.argument = t := by simp [Context.argument, hreact]
      rw [ht] at hargument ⊢
      exact tidyChars_between hbefore hlast hargument hbegins hrestBegins hends
    | none =>
      have hcomment : c.argument = Standard.reactComment := by simp [Context.argument, hreact]
      have hneat := neat_reactComment
      rw [← hcomment] at hneat
      have hwhole : Neat (c.before.toList ++ c.argument.toList ++ c.rest.toList ++ ['\n']) := by
        rw [List.append_assoc _ c.rest.toList]
        exact (hbefore.append hneat (.inr (.inl hargument.begins))).append hlast
          (.inl (hargument.ends.append _))
      rw [hneat.joinLineEnds, hneat.unixLines, ← List.append_assoc]
      exact tidyChars_neat hwhole ((hbegins.append _).append _) (hends.append _)

theorem statement_infix (name : String) (options : Option Json.Members) (react : Option String)
    (rest : List Char) :
    ("const options = " ++ optionsText options ++ ";").toList <:+:
      (Context.make name options react).before.toList ++ rest := by
  have hdeclaration : Standard.declaration = "\n" ++ "const options = " := by decide
  refine ⟨(Context.make name options react).heading.toList ++ ['\n'],
    (Context.make name options react).middle.toList ++ rest, ?_⟩
  simp only [Context.before, Context.statement, optionsJson_make, hdeclaration,
    String.toList_append, List.append_assoc]
  rfl

theorem argument_infix (c : Context) (argument : List Char) :
    "new NxReactWebpackPlugin(".toList ++ argument ++ "),".toList <:+:
      c.before.toList ++ argument ++ (c.rest.toList ++ ['\n']) := by
  refine ⟨(c.heading ++ c.statement ++ Standard.plugins ++
    (if c.hasAppOptions then Standard.withOptions else Standard.withoutOptions) ++
    Standard.beforeReact).toList,
    (Standard.legacyCall ++ c.legacyModule ++ Standard.ending).toList ++ ['\n'], ?_⟩
  simp only [Context.before, Context.middle, Context.rest, Standard.reactCall, Standard.reactEnd,
    String.toList_append, List.append_assoc]

/-- A config that is made from the standard template states the options as they are written, and
forwards the argument for React with no change but to its line ends. -/
theorem Planner.finish_forwards (d : Disk) (root : FilePath) (settings : MigrateSettings)
    (request : Request) (options : Option Json.Members) {name : String}
    (hname : Inline name.toList) {react : Option String}
    (hreact : ∀ t ∈ react, Forwardable t.toList) : ∃ renderer text,
      Renderer.make d none = .ok renderer ∧
      renderer.renderConfig (.make name options react) = .ok text ∧
      ("const options = " ++ optionsText options ++ ";").toList <:+:
        ((⟨d, root, settings, request, renderer⟩ : Planner).finish text react).toList ∧
      ∀ t ∈ react, ∃ t', TurnsLineEnds (!request.skipFormat) t.toList t' ∧
        "new NxReactWebpackPlugin(".toList ++ t' ++ "),".toList <:+:
          ((⟨d, root, settings, request, renderer⟩ : Planner).finish text react).toList := by
  have hrender : Renderer.standard.renderConfig (.make name options react) =
      .ok (withJoinedLineEnds ((Context.make name options react).before ++
        (Context.make name options react).argument ++ (Context.make name options react).rest ++
          "\n")) := by
    have hne : (Context.make name options react).reactOptions ≠ some "" := by
      intro hempty
      exact (hreact "" hempty).begins.ne_nil rfl
    simp only [Renderer.renderConfig, Renderer.render, Context.render_standard hne]
  obtain ⟨argument, hturns, hfinish⟩ :=
    (⟨d, root, settings, request, .standard⟩ : Planner).finish_between hreact
      (neat_before_make options react hname) (neat_rest_make options react hname)
  have hsame : (Context.make name options react).reactOptions = react := rfl
  rw [hsame] at hfinish
  refine ⟨.standard, _, Renderer.make_none d, hrender, ?_, fun t ht => ⟨argument, ?_, ?_⟩⟩
  · rw [hfinish, List.append_assoc]
    exact statement_infix name options react _
  · have hargument : (Context.make name options react).argument = t := by
      rw [Option.mem_def] at ht
      simp [Context.argument, Context.make, ht]
    rw [← hargument]
    exact hturns
  · rw [hfinish]
    exact argument_infix _ argument

/-- An argument with pairs of return and feed, blank lines, white space at the end of a line, and
what would be a tag in a template. -/
def spacedArgument : String :=
  "\x7b svgr:  \r\n\r\n\r\n  '\x7b\x7b options_json \x7d\x7d' \x7d"

theorem forwardable_spacedArgument : Forwardable spacedArgument.toList :=
  ⟨by decide, by decide, by decide⟩

theorem finish_forwards_spacedArgument :
    Inline "webpack.config.js".toList ∧ Forwardable spacedArgument.toList ∧ ∃ renderer text,
      Renderer.make ⟨.directory [], []⟩ none = .ok renderer ∧
      renderer.renderConfig (.make "webpack.config.js"
        (some [("path", .string "\x7b% raw %\x7d")]) (some spacedArgument)) = .ok text ∧
      ("const options = " ++ optionsText (some [("path", .string "\x7b% raw %\x7d")]) ++ ";").toList <:+:
        ((⟨⟨.directory [], []⟩, ⟨"ws"⟩, .standard, ⟨none, false⟩, renderer⟩ : Planner).finish text
          (some spacedArgument)).toList ∧
      ∀ t ∈ some spacedArgument, ∃ t', TurnsLineEnds true t.toList t' ∧
        "new NxReactWebpackPlugin(".toList ++ t' ++ "),".toList <:+:
          ((⟨⟨.directory [], []⟩, ⟨"ws"⟩, .standard, ⟨none, false⟩, renderer⟩ : Planner).finish text
            (some spacedArgument)).toList := by
  have hname : Inline "webpack.config.js".toList := ⟨by decide, by decide⟩
  have hreact : ∀ t ∈ some spacedArgument, Forwardable t.toList := by
    rintro t ⟨⟩
    exact forwardable_spacedArgument
  exact ⟨hname, forwardable_spacedArgument, Planner.finish_forwards _ _ _ _ _ hname hreact⟩

end Migration

end Workyard
