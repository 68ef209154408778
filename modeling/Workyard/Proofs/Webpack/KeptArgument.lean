import Workyard.Proofs.Text.Kept
import Workyard.Proofs.Webpack.Standard

/-!
# Finding the argument for React again

Tidying looks for the argument for React in a config that has been rendered, the line ends of which
have been joined once. It finds the argument unless a return stands before a pair of return and
feed: joining makes another pair of these, and a line less.
-/

namespace Workyard.Webpack

set_option autoImplicit false

open Text

variable {c : Context} {t : String}

/-- What stands before the call that the argument for React is given to. -/
def Context.beforeCall (c : Context) : String :=
  c.heading ++ c.statement ++ Standard.plugins ++
    (if c.hasAppOptions then Standard.withOptions else Standard.withoutOptions) ++
    Standard.beforeReact

/-- What stands after that call. -/
def Context.afterCall (c : Context) : String :=
  Standard.legacyCall ++ c.legacyModule ++ Standard.ending ++ "\n"

theorem Context.rendered_eq (c : Context) :
    (c.before ++ c.argument ++ c.rest ++ "\n").toList =
      c.beforeCall.toList ++ (Standard.reactCall.toList ++
        (c.argument.toList ++ (Standard.reactEnd.toList ++ c.afterCall.toList))) := by
  simp only [before, middle, rest, beforeCall, afterCall, String.toList_append, List.append_assoc]

/-- The lines of a config: those of the argument, the line ends of which are joined first, stand in
the call. -/
theorem Context.unixLines_rendered (c : Context) :
    unixLines (joinLineEnds (c.before ++ c.argument ++ c.rest ++ "\n").toList) =
      unixLines (joinLineEnds c.beforeCall.toList) ++ Standard.reactCall.toList ++
        unixLines (joinLineEnds c.argument.toList) ++ Standard.reactEnd.toList ++
        unixLines (joinLineEnds c.afterCall.toList) := by
  have hcall : Neat Standard.reactCall.toList := Standard.neat_of_mem_parts (by simp [Standard.parts])
  have hend : Neat Standard.reactEnd.toList := Standard.neat_of_mem_parts (by simp [Standard.parts])
  have hcallBegins : BeginsVisibly Standard.reactCall.toList := by decide
  have hcallEnds : EndsVisibly Standard.reactCall.toList := by decide
  have hendBegins : BeginsVisibly Standard.reactEnd.toList := by decide
  have hendEnds : EndsVisibly Standard.reactEnd.toList := by decide
  rw [c.rendered_eq, unixLines_joinLineEnds_append (.inr (hcallBegins.append _)),
    unixLines_joinLineEnds_append (.inl hcallEnds),
    unixLines_joinLineEnds_append (.inr (hendBegins.append _)),
    unixLines_joinLineEnds_append (.inl hendEnds), hcall.unixLines_joinLineEnds,
    hend.unixLines_joinLineEnds]
  simp only [List.append_assoc]

theorem Renderer.exists_rendered (ht : c.reactOptions = some t) (hne : t ≠ "") : ∃ text,
    Renderer.standard.renderConfig c = .ok text ∧
      unixLines text.toList = unixLines (joinLineEnds c.beforeCall.toList) ++
        Standard.reactCall.toList ++ unixLines (joinLineEnds t.toList) ++
        Standard.reactEnd.toList ++ unixLines (joinLineEnds c.afterCall.toList) := by
  have hargument : c.argument = t := by simp [Context.argument, ht]
  have hoptions : c.reactOptions ≠ some "" := by
    rw [ht]
    exact fun heq => hne (Option.some.inj heq)
  refine ⟨withJoinedLineEnds (c.before ++ c.argument ++ c.rest ++ "\n"), ?_, ?_⟩
  · simp only [Renderer.renderConfig, Renderer.render, Context.render_standard hoptions]
  · rw [withJoinedLineEnds, String.toList_ofList, c.unixLines_rendered, hargument]

/-- The argument for React stands in a rendered config with the line ends that joining them first
leaves, and these are its own exactly if no return stands before a pair of return and feed. Then
tidying finds the argument and keeps it. -/
theorem Renderer.finds_argument (d : Disk) (ht : c.reactOptions = some t) (hne : t ≠ "") :
    ∃ renderer text before after,
      Renderer.make d none = .ok renderer ∧ renderer.renderConfig c = .ok text ∧
      unixLines text.toList = before ++ "new NxReactWebpackPlugin(".toList ++
        unixLines (joinLineEnds t.toList) ++ "),".toList ++ after ∧
      (unixLines (joinLineEnds t.toList) = unixLines t.toList ↔
        ¬ ['\r', '\r', '\n'] <:+: t.toList) ∧
      (¬ ['\r', '\r', '\n'] <:+: t.toList →
        (∃ first rest, unixLines text.toList = first ++ unixLines t.toList ++ rest ∧
          occurrence? (unixLines t.toList) (unixLines text.toList) =
            some ⟨first.length, first.length + (unixLines t.toList).length⟩) ∧
        ((unixLines t.toList).head? ≠ some '\n' → (unixLines t.toList).getLast? ≠ some '\n' →
          unixLines t.toList <:+: (tidy text (some t)).toList)) := by
  obtain ⟨text, hrender, htext⟩ := Renderer.exists_rendered ht hne
  refine ⟨.standard, text, _, _, Renderer.make_none d, hrender, htext,
    unixLines_joinLineEnds_iff t.toList, fun hreturn => ?_⟩
  have hwithin : unixLines t.toList <:+: unixLines text.toList := by
    rw [htext, unixLines_joinLineEnds hreturn, List.append_assoc]
    exact List.infix_append _ _ _
  have hnil : unixLines t.toList ≠ [] :=
    unixLines_ne_nil fun heq => hne (String.toList_eq_nil_iff.mp heq)
  refine ⟨exists_occurrence hnil hwithin, fun hstart hstop => ?_⟩
  rw [tidy, String.toList_ofList]
  exact infix_tidyChars hnil hstart hstop hwithin

/-- A template literal with white space at the end of a line and a blank line. -/
def literalArgument : String :=
  "\x7b a: `x  \r\n\r\ny\r` \x7d"

theorem finds_literalArgument :
    (Context.make "w.js" none (some literalArgument)).reactOptions = some literalArgument ∧
      literalArgument ≠ "" ∧ ∃ renderer text,
        Renderer.make ⟨.directory [], []⟩ none = .ok renderer ∧
        renderer.renderConfig (.make "w.js" none (some literalArgument)) = .ok text ∧
        "\x7b a: `x  \n\ny\n` \x7d".toList <:+: (tidy text (some literalArgument)).toList := by
  have hoptions : (Context.make "w.js" none (some literalArgument)).reactOptions =
      some literalArgument := rfl
  have hne : literalArgument ≠ "" := by decide
  obtain ⟨renderer, text, -, -, hmake, hrender, -, -, hfound⟩ :=
    Renderer.finds_argument ⟨.directory [], []⟩ hoptions hne
  have hlines : unixLines literalArgument.toList = "\x7b a: `x  \n\ny\n` \x7d".toList := by decide
  have hkept := (hfound (by decide)).2
  rw [hlines] at hkept
  exact ⟨hoptions, hne, renderer, text, hmake, hrender, hkept (by decide) (by decide)⟩

/-- A template literal with a return before a pair of return and feed. -/
def spoiltArgument : String :=
  "\x7b a: `x  \r\r\ny` \x7d"

set_option maxRecDepth 8000 in
theorem spoiltArgument_is_not_found : ∃ renderer text,
    Renderer.make ⟨.directory [], []⟩ none = .ok renderer ∧
      renderer.renderConfig (.make "w.js" none (some spoiltArgument)) = .ok text ∧
      ¬ unixLines spoiltArgument.toList <:+: unixLines text.toList ∧
      occurrence? (unixLines spoiltArgument.toList) (unixLines text.toList) = none ∧
      ¬ "x  ".toList <:+: (tidy text (some spoiltArgument)).toList := by
  have hcontext : Context.make "w.js" none (some spoiltArgument) =
      ⟨"w.js", "w.old.js", "w.old", "\x7b\x7d", false, some spoiltArgument⟩ := by decide
  rw [hcontext]
  obtain ⟨text, hrender, htext⟩ := @Renderer.exists_rendered
    ⟨"w.js", "w.old.js", "w.old", "\x7b\x7d", false, some spoiltArgument⟩ spoiltArgument rfl
    (by decide)
  have hclosed : indexOf? (unixLines spoiltArgument.toList) (unixLines text.toList) = none ∧
      indexOf? "x  ".toList (writeLines .top (markLines none 0
        (splitAt '\n' (unixLines text.toList)))) = none := by
    rw [htext]
    simp only [Context.beforeCall, Context.heading, Context.statement, Context.afterCall,
      Standard.imports, Standard.notice, Standard.noticeEnd, Standard.declaration, Standard.plugins,
      Standard.withoutOptions, Standard.beforeReact, Standard.reactCall, Standard.reactEnd,
      Standard.legacyCall, Standard.ending, spoiltArgument, String.toList_append, reduceIte,
      Bool.false_eq_true]
    repeat rw [String.toList_ofList]
    decide
  obtain ⟨hkeep, hspaces⟩ := hclosed
  have hnone := occurrence?_eq_none hkeep
  have htidy : (tidy text (some spoiltArgument)).toList =
      writeLines .top (markLines none 0 (splitAt '\n' (unixLines text.toList))) := by
    rw [← hnone]
    exact String.toList_ofList
  rw [← htidy] at hspaces
  exact ⟨.standard, text, Renderer.make_none _, hrender, not_infix_of_indexOf? hkeep, hnone,
    not_infix_of_indexOf? hspaces⟩

end Workyard.Webpack
