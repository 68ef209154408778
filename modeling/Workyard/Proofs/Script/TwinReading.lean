import Workyard.Proofs.Script.Twins

/-!
# What is read from both texts

Each function of the grammar that reads a value reads the twin of it from the other text. Below a bound
on the depth this is assumed of all of them, and shown for each one above it.
-/

namespace Workyard.Script

set_option autoImplicit false

open Node Draft

variable {source source' : List Char}

/-! ### Quoted texts -/

section Quoted

variable {d e : Draft source} {d' e' : Draft source'} {c quote : Char} {cs : List Char} {fuel fuel' : Nat}

theorem Keeps.fragment {n n' : Nat} (h : Keeps d d')
    (htake : Returns.Akin (d.rest.take n) (d'.rest.take n'))
    (hdrop : Returns (d.rest.drop n) (d'.rest.drop n')) :
    Keeps (d.token .fragment n) (d'.token .fragment n') := by
  rcases htake with htake | ⟨hmem, hmem'⟩
  · exact h.same .fragment htake hdrop
  · refine h.token (.fragment ?_ ?_) hdrop
    · rwa [Text.Cursor.peek, String.toList_ofList]
    · rwa [Text.Cursor.peek, String.toList_ofList]

/-- An escape that is read from the first text is read from the second. -/
theorem Keeps.escape (h : Keeps d d') (hclean : Clean
      (if Lexeme.escape d.rest = 0 then d.stray else d.token .escape (Lexeme.escape d.rest)).nodes) :
    Keeps (if Lexeme.escape d.rest = 0 then d.stray else d.token .escape (Lexeme.escape d.rest))
      (if Lexeme.escape d'.rest = 0 then d'.stray
        else d'.token .escape (Lexeme.escape d'.rest)) := by
  by_cases hnone : Lexeme.escape d.rest = 0
  · rw [if_pos hnone] at hclean
    exact absurd hclean.ordinary (not_ordinary_token rfl d)
  · rw [if_neg hnone] at hclean ⊢
    rcases h.rest.escape with hmark | ⟨hzero, htake, hdrop⟩
    · cases (clean_cons_iff.mp hclean).1 with
      | leaf _ hs =>
        refine absurd ?_ (hs rfl)
        rwa [Text.Cursor.peek, String.toList_ofList]
    · rw [if_neg (mt hzero.mp hnone)]
      rcases htake with htake | ⟨htake, htake'⟩
      · exact h.same .escape htake hdrop
      · refine h.token ?_ hdrop
        have hpeek : d.cursor.peek (Lexeme.escape d.rest) = "\\\n" := congrArg String.ofList htake
        have hpeek' : d'.cursor.peek (Lexeme.escape d'.rest) = "\\\r\n" :=
          congrArg String.ofList htake'
        rw [hpeek, hpeek']
        exact .continuation

/-- White space and comments before a closing quote are as long as what is left behind them is short. -/
theorem drop_gap (d : Draft source) : d.rest.drop (d.rest.length - d.gap.rest.length) = d.gap.rest :=
  (List.suffix_iff_eq_drop.mp (layout_suffix false _ d)).symm

theorem Keeps.blanks (h : Keeps d d') (hd : d.rest = '\n' :: cs) (hc : d.gap.rest.head? ≠ some '\n') :
    Keeps (d.token .fragment (d.rest.length - d.gap.rest.length))
      (d'.token .fragment (d'.rest.length - d'.gap.rest.length)) := by
  have hcount {source : List Char} (d : Draft source) :
      (d.rest.take (d.rest.length - d.gap.rest.length)).count '\n' + d.gap.rest.count '\n' =
        d.rest.count '\n' := by
    have hsplit := List.take_append_drop (d.rest.length - d.gap.rest.length) d.rest
    rw [drop_gap] at hsplit
    rw [← List.count_append, hsplit]
  have hrest := h.rest.count_feed
  have hgap := h.gap.rest.count_feed
  have htotal := hcount d
  have htotal' := hcount d'
  have hmem : '\n' ∈ d.rest.take (d.rest.length - d.gap.rest.length) := by
    cases hn : d.rest.length - d.gap.rest.length with
    | zero =>
      have hdrop := drop_gap d
      rw [hn, List.drop_zero, hd] at hdrop
      rw [← hdrop] at hc
      exact absurd rfl hc
    | succ n =>
      rw [hd, List.take_succ_cons]
      exact List.mem_cons_self
  have hpos := List.count_pos_iff.mpr hmem
  refine h.fragment (.inr ⟨hmem, List.count_pos_iff.mp (by omega)⟩) ?_
  rw [drop_gap, drop_gap]
  exact h.gap.rest

/-- What is read behind a run of characters that stand for themselves. -/
def quotedStep (quote : Char) (fuel : Nat) (d : Draft source) : Draft source :=
  match d.rest with
  | '\\' :: _ =>
    quotedTail quote fuel
      (if Lexeme.escape d.rest = 0 then d.stray else d.token .escape (Lexeme.escape d.rest))
  | c :: _ =>
    if c == quote then d.sign 1
    else if d.gap.rest.head? == some quote then
      (d.token .fragment (d.rest.length - d.gap.rest.length)).sign 1
    else d.missing
  | [] => d.missing

theorem quotedTail_succ (d : Draft source) : quotedTail quote (fuel + 1) d = quotedStep quote fuel
    (if Lexeme.fragment quote d.rest = 0 then d
      else d.token .fragment (Lexeme.fragment quote d.rest)) := by
  rw [quotedTail]
  rfl

theorem quotedStep_escape (hd : d.rest = '\\' :: cs) : quotedStep quote fuel d =
    quotedTail quote fuel
      (if Lexeme.escape d.rest = 0 then d.stray else d.token .escape (Lexeme.escape d.rest)) := by
  simp only [quotedStep, hd]

theorem quotedStep_cons (hd : d.rest = c :: cs) (hc : c ≠ '\\') : quotedStep quote fuel d =
    if c == quote then d.sign 1
    else if d.gap.rest.head? == some quote then
      (d.token .fragment (d.rest.length - d.gap.rest.length)).sign 1
    else d.missing := by
  unfold quotedStep
  split
  · rename_i heq
    exact absurd (List.cons.inj (hd.symm.trans heq)).1 hc
  · rename_i heq
    obtain ⟨rfl, -⟩ := List.cons.inj (hd.symm.trans heq)
    rfl
  · rename_i heq
    cases hd.symm.trans heq

/-- A run ends at the end of the line, if not at the quote or at a backslash. -/
theorem head?_fragment (quote : Char) (d : Draft source) : ∀ c ∈ ((if Lexeme.fragment quote d.rest = 0 then d
    else d.token .fragment (Lexeme.fragment quote d.rest)).rest).head?,
    c = quote ∨ c = '\\' ∨ c = '\r' ∨ c = '\n' := by
  intro c hc
  have hrest : (if Lexeme.fragment quote d.rest = 0 then d
      else d.token .fragment (Lexeme.fragment quote d.rest)).rest =
        d.rest.drop (Lexeme.fragment quote d.rest) := by
    split
    · rename_i hnone
      rw [hnone, List.drop_zero]
    · rfl
  rw [hrest, Lexeme.fragment, drop_takeWhile] at hc
  have hnot := List.head?_dropWhile_not
    (fun c => !(c == quote || c == '\\' || c == '\r' || c == '\n')) d.rest
  rw [Option.mem_def] at hc
  rw [hc] at hnot
  simpa [or_iff_not_imp_left] using hnot

theorem Keeps.fragmentRun (h : Keeps d d') (quote : Char) : Keeps
    (if Lexeme.fragment quote d.rest = 0 then d else d.token .fragment (Lexeme.fragment quote d.rest))
    (if Lexeme.fragment quote d'.rest = 0 then d'
      else d'.token .fragment (Lexeme.fragment quote d'.rest)) := by
  have hlength := h.rest.eq_of_bounded (inLine_fragment quote).bounded
  by_cases hnone : Lexeme.fragment quote d.rest = 0
  · rw [if_pos hnone, if_pos (hlength.trans hnone)]
    exact h
  · rw [if_neg hnone, if_neg (hlength ▸ hnone)]
    exact h.inLine .fragment (inLine_fragment quote)

/-- Where a quoted text ends its line, what is left before the closing quote is white space. -/
theorem keeps_quotedStep_feed (hquote : quote ≠ '\n' ∧ quote ≠ '\r') (h : Keeps d d')
    (hd : d.rest = '\n' :: cs) (hclean : Clean (quotedStep quote fuel d).nodes) :
    Keeps (quotedStep quote fuel d) (quotedStep quote fuel' d') := by
  have hnot : ('\n' == quote) = false := beq_eq_false_iff_ne.mpr (Ne.symm hquote.1)
  have hgap := h.gap.rest.eq_of_bounded (bounded_head quote hquote)
  rw [quotedStep_cons hd (by decide), hnot, if_neg Bool.false_ne_true] at hclean ⊢
  cases hhead : d.gap.rest.head? == some quote with
  | false =>
    rw [hhead, if_neg Bool.false_ne_true] at hclean
    exact absurd hclean.ordinary (not_ordinary_missing d)
  | true =>
    have hquoteHead := beq_iff_eq.mp hhead
    obtain ⟨t, ht⟩ := List.head?_eq_some_iff.mp hquoteHead
    have hblanks := h.blanks hd (by rw [hquoteHead]; simpa using hquote.1)
    have hsign := hblanks.sign (show _ = quote :: t from (drop_gap d).trans ht) hquote.1
    have hrest := h.rest
    rw [hd] at hrest
    rw [if_pos rfl]
    obtain ⟨cs', hd' | hd', -⟩ := hrest.feed
    · rw [quotedStep_cons hd' (by decide), hnot, if_neg Bool.false_ne_true, hgap, hhead, if_pos rfl]
      exact hsign
    · have hnot : ('\r' == quote) = false := beq_eq_false_iff_ne.mpr (Ne.symm hquote.2)
      rw [quotedStep_cons hd' (by decide), hnot, if_neg Bool.false_ne_true, hgap, hhead, if_pos rfl]
      exact hsign

theorem keeps_quotedTail (hquote : quote ≠ '\n' ∧ quote ≠ '\r') (hfuel : fuel ≤ fuel') (h : Keeps d d')
    (hclean : Clean (quotedTail quote fuel d).nodes) :
    Keeps (quotedTail quote fuel d) (quotedTail quote fuel' d') := by
  induction fuel generalizing d d' fuel' with
  | zero => exact absurd hclean.ordinary (not_ordinary_missing d)
  | succ fuel ih =>
    obtain ⟨fuel', rfl⟩ : ∃ k, fuel' = k + 1 := ⟨fuel' - 1, by omega⟩
    have he := h.fragmentRun quote
    have hends := head?_fragment quote d
    rw [quotedTail_succ] at hclean ⊢
    rw [quotedTail_succ]
    generalize (if Lexeme.fragment quote d.rest = 0 then d
      else d.token .fragment (Lexeme.fragment quote d.rest)) = e at he hends hclean ⊢
    generalize (if Lexeme.fragment quote d'.rest = 0 then d'
      else d'.token .fragment (Lexeme.fragment quote d'.rest)) = e' at he ⊢
    have hrest := he.rest
    cases hd : e.rest with
    | nil =>
      unfold quotedStep at hclean
      rw [hd] at hclean
      exact absurd hclean.ordinary (not_ordinary_missing e)
    | cons c cs =>
      rw [hd] at hends hrest
      by_cases hback : c = '\\'
      · subst hback
        obtain ⟨-, cs', hd', -⟩ := hrest.cons (by decide)
        rw [quotedStep_escape hd] at hclean ⊢
        rw [quotedStep_escape hd']
        have hescape := (adds_quotedTail quote fuel _).clean hclean
        exact ih (by omega) (he.escape hescape) hclean
      by_cases hclose : c = quote
      · subst hclose
        obtain ⟨-, cs', hd', -⟩ := hrest.cons hquote.1
        rw [quotedStep_cons hd hback, quotedStep_cons hd' hback, beq_self_eq_true, if_pos rfl,
          if_pos rfl]
        exact he.sign hd hquote.1
      have hfeed : c = '\n' := by
        by_contra hne
        rcases hends c rfl with heq | heq | heq | heq
        · exact hclose heq
        · exact hback heq
        · exact (hrest.cons hne).1 heq
        · exact hne heq
      subst hfeed
      exact keeps_quotedStep_feed hquote he hd hclean

theorem keeps_quoted (hquote : quote ≠ '\n' ∧ quote ≠ '\r') (h : Keeps d d') (hd : d.rest = quote :: cs)
    (hclean : Clean (d.quoted quote).nodes) : Keeps (d.quoted quote) (d'.quoted quote) := by
  have hsign := h.fresh.sign hd hquote.1
  refine h.enclose .string (keeps_quotedTail hquote ?_ hsign (clean_enclose_iff.mp hclean).1.2)
  exact Nat.succ_le_succ h.rest.length_le

/-! ### Templates -/

/-- What is read behind a run of characters that stand for themselves. -/
def templateStep (fuel : Nat) (d : Draft source) : Draft source :=
  match d.rest with
  | [] => d.missing
  | '\x60' :: _ => d.sign 1
  | '\\' :: _ =>
    templateTail fuel
      (if Lexeme.escape d.rest = 0 then d.stray else d.token .escape (Lexeme.escape d.rest))
  | _ =>
    templateTail fuel (d.enclose .substitution fun b =>
      (expressions fuel (b.sign 2).space).gap.expect "\x7d")

theorem templateTail_succ (d : Draft source) : templateTail (fuel + 1) d = templateStep fuel
    (if Lexeme.templateFragment d.rest = 0 then d
      else d.token .fragment (Lexeme.templateFragment d.rest)) := by
  rw [templateTail]
  rfl

theorem templateStep_escape (hd : d.rest = '\\' :: cs) : templateStep fuel d = templateTail fuel
    (if Lexeme.escape d.rest = 0 then d.stray else d.token .escape (Lexeme.escape d.rest)) := by
  simp only [templateStep, hd]

theorem Keeps.templateRun (h : Keeps d d') : Keeps
    (if Lexeme.templateFragment d.rest = 0 then d
      else d.token .fragment (Lexeme.templateFragment d.rest))
    (if Lexeme.templateFragment d'.rest = 0 then d'
      else d'.token .fragment (Lexeme.templateFragment d'.rest)) := by
  obtain ⟨hzero, htake, hdrop⟩ := h.rest.templateFragment
  by_cases hnone : Lexeme.templateFragment d.rest = 0
  · rw [if_pos hnone, if_pos (hzero.mpr hnone)]
    exact h
  · rw [if_neg hnone, if_neg (mt hzero.mp hnone)]
    exact h.fragment htake hdrop

theorem keeps_templateTail (hfuel : fuel ≤ fuel') (h : Keeps d d')
    (hclean : Clean (templateTail fuel d).nodes) :
    Keeps (templateTail fuel d) (templateTail fuel' d') := by
  induction fuel generalizing d d' fuel' with
  | zero =>
    rw [templateTail] at hclean
    exact absurd hclean.ordinary (not_ordinary_missing d)
  | succ fuel ih =>
    obtain ⟨fuel', rfl⟩ : ∃ k, fuel' = k + 1 := ⟨fuel' - 1, by omega⟩
    have he := h.templateRun
    rw [templateTail_succ] at hclean ⊢
    rw [templateTail_succ]
    generalize (if Lexeme.templateFragment d.rest = 0 then d
      else d.token .fragment (Lexeme.templateFragment d.rest)) = e at he hclean ⊢
    generalize (if Lexeme.templateFragment d'.rest = 0 then d'
      else d'.token .fragment (Lexeme.templateFragment d'.rest)) = e' at he ⊢
    have hrest := he.rest
    unfold templateStep at hclean
    split at hclean
    · exact absurd hclean.ordinary (not_ordinary_missing e)
    · rename_i cs hd
      rw [hd] at hrest
      obtain ⟨-, cs', hd', -⟩ := hrest.cons (by decide)
      simp only [templateStep, hd, hd']
      exact he.sign hd (by decide)
    · rename_i cs hd
      rw [hd] at hrest
      obtain ⟨-, cs', hd', -⟩ := hrest.cons (by decide)
      have hescape := ((reads fuel).templateTail _).clean hclean
      rw [templateStep_escape hd, templateStep_escape hd']
      exact ih (by omega) (he.escape hescape) hclean
    · have hsubstitution := ((reads fuel).templateTail _).clean hclean
      exact absurd hsubstitution.ordinary (not_ordinary_append_close rfl)

theorem keeps_template (hfuel : fuel ≤ fuel') (h : Keeps d d') (hd : d.rest = '\x60' :: cs)
    (hclean : Clean (template fuel d).nodes) : Keeps (template fuel d) (template fuel' d') := by
  cases fuel with
  | zero =>
    rw [template] at hclean
    exact absurd hclean.ordinary (not_ordinary_missing d)
  | succ fuel =>
    obtain ⟨fuel', rfl⟩ : ∃ k, fuel' = k + 1 := ⟨fuel' - 1, by omega⟩
    rw [template] at hclean ⊢
    rw [template]
    have hsign := h.fresh.sign hd (by decide)
    exact h.enclose .template
      (keeps_templateTail (by omega) hsign (clean_enclose_iff.mp hclean).1.2)

end Quoted

/-! ### What is no value -/

section NoValue

variable {d : Draft source} {fuel : Nat}

theorem not_ordinary_astray : ¬ Ordinary (astray fuel d).nodes := by
  cases fuel with
  | zero => exact not_ordinary_missing d
  | succ fuel =>
    rw [astray]
    split
    · exact not_ordinary_missing d
    · intro h
      have hstray := (adds_space_all d.stray).ordinary (((reads fuel).operand _).ordinary h)
      exact not_ordinary_token rfl d hstray

theorem not_ordinary_asParenthesized {start : Text.Cursor source} :
    ¬ Ordinary (d.asParenthesized start).nodes := by
  intro h
  unfold asParenthesized at h
  simp only at h
  split at h
  · exact not_ordinary_close rfl h
  · split at h
    · exact not_ordinary_close rfl h
    · exact not_ordinary_close rfl h
  · split at h
    · exact not_ordinary_close rfl h
    · exact not_ordinary_close rfl h

theorem not_ordinary_parenthesized : ¬ Ordinary (parenthesized fuel d).nodes := by
  cases fuel with
  | zero => exact not_ordinary_missing d
  | succ fuel =>
    rw [parenthesized]
    simp only
    split
    · exact not_ordinary_append_close rfl
    · exact fun h => not_ordinary_asParenthesized (ordinary_append_iff.mp h).1

theorem not_ordinary_functionFrom {start : Text.Cursor source} :
    ¬ Ordinary (functionFrom fuel start d).nodes := by
  cases fuel with
  | zero => exact not_ordinary_missing d
  | succ fuel =>
    have hkind (yields : Bool) : (if yields then Kind.other else .function).isPlain = false := by
      cases yields <;> rfl
    rw [functionFrom]
    exact not_ordinary_append_close (hkind _)

theorem not_ordinary_named : ¬ Ordinary (named fuel d).nodes := by
  cases fuel with
  | zero => exact not_ordinary_missing d
  | succ fuel =>
    rw [named]
    split
    · exact not_ordinary_append_close rfl
    · exact not_ordinary_token rfl d

theorem not_ordinary_newFrom : ¬ Ordinary (newFrom fuel d).nodes := by
  cases fuel with
  | zero => exact not_ordinary_missing d
  | succ fuel =>
    rw [newFrom]
    simp only
    split <;> exact not_ordinary_append_close rfl

theorem not_ordinary_element : ¬ Ordinary (element fuel d).nodes := by
  cases fuel with
  | zero => exact not_ordinary_missing d
  | succ fuel =>
    rw [element]
    exact not_ordinary_append_close rfl

end NoValue

/-! ### Values -/

/-- Where clean nodes are read from the first text, their twins are read from the second. -/
def Echoed (source source' : List Char) (fuel : Nat) (read : Draft source → Draft source)
    (read' : Nat → Draft source' → Draft source') : Prop :=
  ∀ {fuel' : Nat} {d : Draft source} {d' : Draft source'}, fuel ≤ fuel' → Keeps d d' →
    Clean (read d).nodes → Keeps (read d) (read' fuel' d')

/-- The same where an expression ends behind them. -/
def EchoedAtEnd (source source' : List Char) (fuel : Nat) (read : Draft source → Draft source)
    (read' : Nat → Draft source' → Draft source') : Prop :=
  ∀ {fuel' : Nat} {d : Draft source} {d' : Draft source'}, fuel ≤ fuel' → Keeps d d' →
    Clean (read d).nodes → Ended (read d) → Keeps (read d) (read' fuel' d')

/-- What the functions of the grammar echo at a bound on the depth. -/
structure Echoes (source source' : List Char) (fuel : Nat) : Prop where
  expression : EchoedAtEnd source source' fuel (expression fuel) expression
  operand : EchoedAtEnd source source' fuel (operand fuel) operand
  postfixed : EchoedAtEnd source source' fuel (postfixed fuel) postfixed
  primary : Echoed source source' fuel (primary fuel) primary
  worded : Echoed source source' fuel (worded fuel) worded
  entries : ∀ l, Echoed source source' fuel (entries fuel l) fun fuel => entries fuel l
  entriesAfter : ∀ l, Echoed source source' fuel (entriesAfter fuel l) fun fuel => entriesAfter fuel l
  entry : ∀ l, EchoedAtEnd source source' fuel (entry fuel l) fun fuel => entry fuel l
  member : EchoedAtEnd source source' fuel (member fuel) member
  memberTail : ∀ start start', EchoedAtEnd source source' fuel (memberTail fuel start)
    fun fuel => memberTail fuel start'
  propertyName : Echoed source source' fuel (propertyName fuel) propertyName

theorem echoes_zero : Echoes source source' 0 where
  expression _ _ hclean _ := absurd hclean.ordinary (not_ordinary_missing _)
  operand _ _ hclean _ := absurd hclean.ordinary (not_ordinary_missing _)
  postfixed _ _ hclean _ := absurd hclean.ordinary (not_ordinary_missing _)
  primary _ _ hclean := absurd hclean.ordinary (not_ordinary_missing _)
  worded _ _ hclean := absurd hclean.ordinary (not_ordinary_missing _)
  entries _ _ _ _ _ _ hclean := absurd hclean.ordinary (not_ordinary_missing _)
  entriesAfter _ _ _ _ _ _ hclean := absurd hclean.ordinary (not_ordinary_missing _)
  entry _ _ _ _ _ _ hclean _ := absurd hclean.ordinary (not_ordinary_missing _)
  member _ _ hclean _ := absurd hclean.ordinary (not_ordinary_missing _)
  memberTail _ _ _ _ _ _ _ hclean _ := absurd hclean.ordinary (not_ordinary_missing _)
  propertyName _ _ hclean := absurd hclean.ordinary (not_ordinary_missing _)

theorem bounded_operandSigns :
    Bounded fun cs => "!~+-".toList.any fun c => cs.head? == some c := by
  intro p t ht
  have hhead (c : Char) (hc : c ≠ '\n' ∧ c ≠ '\r') : ((p ++ t).head? == some c) = (p.head? == some c) :=
    bounded_head c hc p t ht
  show List.any ['!', '~', '+', '-'] _ = List.any ['!', '~', '+', '-'] _
  simp only [List.any_cons, List.any_nil]
  rw [hhead '!' (by decide), hhead '~' (by decide), hhead '+' (by decide), hhead '-' (by decide)]

section Steps

variable {fuel fuel' : Nat} {d e : Draft source} {d' e' : Draft source'} {c : Char} {cs : List Char}

theorem echoed_expression (h : Echoes source source' fuel) :
    EchoedAtEnd source source' (fuel + 1) (expression (fuel + 1)) expression := by
  intro fuel' d d' hfuel hd hclean hended
  obtain ⟨fuel', rfl⟩ : ∃ k, fuel' = k + 1 := ⟨fuel' - 1, by omega⟩
  have heq := expression_of_open hclean.ordinary.opens
  rw [heq] at hclean hended ⊢
  have hoperand := (clean_append_iff.mp hclean).1
  cases fuel with
  | zero => exact absurd hoperand.ordinary (not_ordinary_missing _)
  | succ fuel =>
    obtain ⟨k, rfl⟩ : ∃ k, fuel' = k + 1 := ⟨fuel' - 1, by omega⟩
    have hends := hended.of_append
    have he := h.operand (Nat.le_of_succ_le_succ hfuel) hd.fresh hoperand hends
    have hends' : Ends (operand (k + 1) (fresh d'.cursor)).gap.rest := he.ended hends
    rw [expression, binaryTail_of_ends d'.cursor hends', choice_of_ends hends']
    exact hd.append he

theorem echoed_postfixed (h : Echoes source source' fuel) :
    EchoedAtEnd source source' (fuel + 1) (postfixed (fuel + 1)) postfixed := by
  intro fuel' d d' hfuel hd hclean hended
  obtain ⟨fuel', rfl⟩ : ∃ k, fuel' = k + 1 := ⟨fuel' - 1, by omega⟩
  have heq := postfixed_of_open hclean.ordinary.opens
  rw [heq] at hclean hended ⊢
  have hprimary := (clean_append_iff.mp hclean).1
  cases fuel with
  | zero => exact absurd hprimary.ordinary (not_ordinary_missing _)
  | succ fuel =>
    obtain ⟨k, rfl⟩ : ∃ k, fuel' = k + 1 := ⟨fuel' - 1, by omega⟩
    have hends := hended.of_append
    have he := h.primary (Nat.le_of_succ_le_succ hfuel) hd.fresh hprimary
    have hends' : Ends (primary (k + 1) (fresh d'.cursor)).gap.rest := he.ended hends
    rw [postfixed, postfixTail_of_idle true d'.cursor (idle_of_ends hends'),
      assigned_of_ends d'.cursor hends']
    exact hd.append he

theorem echoed_operand (h : Echoes source source' fuel) :
    EchoedAtEnd source source' (fuel + 1) (operand (fuel + 1)) operand := by
  intro fuel' d d' hfuel hd hclean hended
  obtain ⟨fuel', rfl⟩ : ∃ k, fuel' = k + 1 := ⟨fuel' - 1, by omega⟩
  have hunary {sign : Draft source → Draft source} {sign' : Draft source' → Draft source'}
      (hsign : Keeps (sign (fresh d.cursor)) (sign' (fresh d'.cursor)))
      (hclean : Clean (d.enclose .unary fun b => operand fuel (sign b).space).nodes)
      (hended : Ended (d.enclose .unary fun b => operand fuel (sign b).space)) :
      Keeps (d.enclose .unary fun b => operand fuel (sign b).space)
        (d'.enclose .unary fun b => operand fuel' (sign' b).space) :=
    hd.enclose .unary (h.operand (by omega) hsign.space (clean_enclose_iff.mp hclean).1.2
      hended.of_enclose)
  have hsigns := hd.rest.eq_of_bounded bounded_operandSigns
  rw [operand] at hclean hended ⊢
  rw [operand, hd.beginsWith (s := "++") (by decide), hd.beginsWith (s := "--") (by decide), hsigns,
    hd.word]
  by_cases htwice : (d.beginsWith "++" || d.beginsWith "--") = true
  · rw [if_pos htwice] at hclean
    exact absurd hclean.ordinary (not_ordinary_append_close rfl)
  rw [if_neg htwice] at hclean hended ⊢
  rw [if_neg htwice]
  by_cases honce : ("!~+-".toList.any fun c => d.rest.head? == some c) = true
  · rw [if_pos honce] at hclean hended ⊢
    rw [if_pos honce]
    obtain ⟨c, hc, hhead⟩ := List.any_eq_true.mp honce
    obtain ⟨cs, hcs⟩ := List.head?_eq_some_iff.mp (beq_iff_eq.mp hhead)
    have hfeed : c ≠ '\n' := by
      rintro rfl
      exact absurd hc (by decide)
    exact hunary (hd.fresh.sign hcs hfeed) hclean hended
  rw [if_neg honce] at hclean hended ⊢
  rw [if_neg honce]
  have hword := hunary (hd.fresh.inLine .punctuation inLine_word)
  generalize d.word = w at hclean hended ⊢
  split at hclean
  · exact hword hclean hended
  · exact hword hclean hended
  · exact hword hclean hended
  · exact absurd hclean.ordinary (not_ordinary_append_close rfl)
  · exact absurd hclean.ordinary (not_ordinary_append_close rfl)
  · simp only at hended ⊢
    exact h.postfixed (by omega) hd hclean hended

/-- The signs that tell what a primary is. -/
def primarySigns : List Char :=
  ['(', '[', '\x7b', '\x22', '\x27', '\x60', '<', '/', '#', '@']

theorem primary_of_other (hd : d.rest = c :: cs) (hc : c ∉ primarySigns) : primary (fuel + 1) d =
    if Lexeme.number d.rest != 0 then d.number
    else if Lexeme.word d.rest != 0 then worded fuel d
    else astray fuel d := by
  have hne (x : Char) (hx : x ∈ primarySigns) (t : List Char) : d.rest ≠ x :: t := by
    intro heq
    obtain rfl : c = x := (List.cons.inj (hd.symm.trans heq)).1
    exact hc hx
  rw [primary]
  split
  all_goals first | rfl | exact absurd ‹_› (hne _ (by decide) _)

theorem echoed_primary (h : Echoes source source' fuel) :
    Echoed source source' (fuel + 1) (primary (fuel + 1)) primary := by
  intro fuel' d d' hfuel hd hclean
  obtain ⟨fuel', rfl⟩ : ∃ k, fuel' = k + 1 := ⟨fuel' - 1, by omega⟩
  cases hcs : d.rest with
  | nil =>
    simp only [primary, hcs] at hclean
    exact absurd hclean.ordinary not_ordinary_astray
  | cons c cs =>
    by_cases hc : c ∈ primarySigns
    · obtain ⟨cs', hcs'⟩ := hd.head hcs (ne_of_mem_of_not_mem hc (by decide))
      have hentries (l : Listing) (hfeed : c ≠ '\n')
          (hclean : Clean (entries fuel l ((fresh d.cursor).sign 1)).nodes) :=
        h.entries l (Nat.le_of_succ_le_succ hfuel) (hd.fresh.sign hcs hfeed) hclean
      simp only [primarySigns, List.mem_cons, List.not_mem_nil, or_false] at hc
      rcases hc with rfl | rfl | rfl | rfl | rfl | rfl | rfl | rfl | rfl | rfl
      all_goals simp only [primary, hcs, hcs'] at hclean ⊢
      · exact absurd hclean.ordinary not_ordinary_parenthesized
      · exact hd.enclose .array (hentries .items (by decide) (clean_enclose_iff.mp hclean).1.2)
      · exact hd.enclose .object (hentries .members (by decide) (clean_enclose_iff.mp hclean).1.2)
      · exact keeps_quoted (by decide) hd hcs hclean
      · exact keeps_quoted (by decide) hd hcs hclean
      · exact keeps_template (by omega) hd hcs hclean
      · exact absurd hclean.ordinary not_ordinary_element
      · split at hclean <;> exact absurd hclean.ordinary (not_ordinary_token rfl d)
      · split at hclean
        · exact absurd hclean.ordinary not_ordinary_astray
        · split at hclean <;> exact absurd hclean.ordinary (not_ordinary_token rfl d)
      · exact absurd hclean.ordinary (not_ordinary_append_close rfl)
    · rw [primary_of_other hcs hc] at hclean ⊢
      have hsame : c ≠ '\n' := by
        rintro rfl
        rw [hcs] at hclean
        exact not_ordinary_astray hclean.ordinary
      obtain ⟨cs', hcs'⟩ := hd.head hcs hsame
      rw [primary_of_other hcs' hc, hd.rest.eq_of_bounded inLine_number.bounded,
        hd.rest.eq_of_bounded inLine_word.bounded]
      split
      · exact hd.inLine .number inLine_number
      · rename_i hnumber
        rw [if_neg hnumber] at hclean
        split
        · rename_i hword
          rw [if_pos hword] at hclean
          exact h.worded (by omega) hd hclean
        · rename_i hword
          rw [if_neg hword] at hclean
          exact absurd hclean.ordinary not_ordinary_astray

theorem echoed_worded : Echoed source source' (fuel + 1) (worded (fuel + 1)) worded := by
  intro fuel' d d' hfuel hd hclean
  obtain ⟨fuel', rfl⟩ : ∃ k, fuel' = k + 1 := ⟨fuel' - 1, by omega⟩
  have htoken (k : Kind) := hd.inLine k inLine_word
  rw [worded] at hclean ⊢
  rw [worded, hd.word]
  generalize d.word = w at hclean ⊢
  simp only at hclean
  split at hclean
  · exact htoken .trueWord
  · exact htoken .falseWord
  · exact htoken .nullWord
  · exact absurd hclean.ordinary (not_ordinary_token rfl d)
  · exact absurd hclean.ordinary (not_ordinary_token rfl d)
  · exact absurd hclean.ordinary (not_ordinary_token rfl d)
  · exact absurd hclean.ordinary not_ordinary_functionFrom
  · exact absurd hclean.ordinary (not_ordinary_append_close rfl)
  · exact absurd hclean.ordinary not_ordinary_newFrom
  · split at hclean
    · exact absurd hclean.ordinary (not_ordinary_token rfl d)
    · exact absurd hclean.ordinary (not_ordinary_token rfl d.missing)
  · split at hclean
    · exact absurd hclean.ordinary not_ordinary_functionFrom
    split at hclean
    · split at hclean <;> exact absurd hclean.ordinary (not_ordinary_append_close rfl)
    split at hclean
    · exact absurd hclean.ordinary (not_ordinary_append_close rfl)
    · exact absurd hclean.ordinary not_ordinary_named
  · exact absurd hclean.ordinary not_ordinary_named

theorem propertyName_of_other (hd : d.rest = c :: cs)
    (hc : c ∉ ['\x22', '\x27', '[', '#']) : propertyName (fuel + 1) d =
    if Lexeme.number d.rest != 0 then d.number
    else if Lexeme.word d.rest != 0 then d.wordToken .propertyName
    else d.missing := by
  have hne (x : Char) (hx : x ∈ ['\x22', '\x27', '[', '#']) (t : List Char) : d.rest ≠ x :: t := by
    intro heq
    obtain rfl : c = x := (List.cons.inj (hd.symm.trans heq)).1
    exact hc hx
  rw [propertyName]
  split
  all_goals first | rfl | exact absurd ‹_› (hne _ (by decide) _)

theorem echoed_propertyName :
    Echoed source source' (fuel + 1) (propertyName (fuel + 1)) propertyName := by
  intro fuel' d d' hfuel hd hclean
  obtain ⟨fuel', rfl⟩ : ∃ k, fuel' = k + 1 := ⟨fuel' - 1, by omega⟩
  cases hcs : d.rest with
  | nil =>
    simp only [propertyName, hcs] at hclean
    exact absurd hclean.ordinary (not_ordinary_missing d)
  | cons c cs =>
    by_cases hc : c ∈ ['\x22', '\x27', '[', '#']
    · obtain ⟨cs', hcs'⟩ := hd.head hcs (ne_of_mem_of_not_mem hc (by decide))
      simp only [List.mem_cons, List.not_mem_nil, or_false] at hc
      rcases hc with rfl | rfl | rfl | rfl
      all_goals simp only [propertyName, hcs, hcs'] at hclean ⊢
      · exact keeps_quoted (by decide) hd hcs hclean
      · exact keeps_quoted (by decide) hd hcs hclean
      · exact absurd hclean.ordinary (not_ordinary_append_close rfl)
      · split at hclean
        · exact absurd hclean.ordinary (not_ordinary_missing d)
        · exact absurd hclean.ordinary (not_ordinary_token rfl d)
    · rw [propertyName_of_other hcs hc] at hclean ⊢
      have hsame : c ≠ '\n' := by
        rintro rfl
        rw [hcs] at hclean
        exact not_ordinary_missing d hclean.ordinary
      obtain ⟨cs', hcs'⟩ := hd.head hcs hsame
      rw [propertyName_of_other hcs' hc, hd.rest.eq_of_bounded inLine_number.bounded,
        hd.rest.eq_of_bounded inLine_word.bounded]
      split
      · exact hd.inLine .number inLine_number
      · rename_i hnumber
        rw [if_neg hnumber] at hclean
        split
        · exact hd.inLine .propertyName inLine_word
        · rename_i hword
          rw [if_neg hword] at hclean
          exact absurd hclean.ordinary (not_ordinary_missing d)

/-! ### Lists -/

theorem ended_of_entriesAfter {l : Listing} (hclean : Clean (entriesAfter fuel l d).nodes) : Ended d := by
  cases fuel with
  | zero => exact absurd hclean.ordinary (not_ordinary_missing d)
  | succ fuel =>
    rw [entriesAfter] at hclean
    unfold Ended
    split at hclean
    · exact absurd hclean.ordinary (not_ordinary_missing d)
    · rename_i c t hcs
      rw [hcs]
      split at hclean
      · rename_i hclosing
        rw [beq_iff_eq.mp hclosing]
        cases l <;> constructor
      split at hclean
      · rename_i hcomma
        rw [beq_iff_eq.mp hcomma]
        constructor
      split at hclean
      · exact absurd hclean.ordinary (not_ordinary_missing d)
      · exact absurd (((reads fuel).entriesAfter l _).ordinary hclean.ordinary) (not_ordinary_append_close rfl)

/-- The character behind white space and comments is the same in both texts. -/
theorem Keeps.head_layout {html : Bool} {k k' : Nat} (h : Keeps d d') (hk : d.rest.length < k)
    (hk' : d'.rest.length < k') (hd : (d.layout html k).rest = c :: cs) :
    c ≠ '\n' ∧ ∃ cs', (d'.layout html k').rest = c :: cs' := by
  have hspace := head?_layout html hk c (by rw [hd]; rfl)
  have hfeed : c ≠ '\n' := by
    rintro rfl
    cases hspace
  exact ⟨hfeed, (h.layout hk hk').head hd hfeed⟩

theorem echoed_entries (h : Echoes source source' fuel) (l : Listing) : Echoed source source' (fuel + 1) (entries (fuel + 1) l)
    fun fuel => entries fuel l := by
  intro fuel' d d' hfuel hd hclean
  obtain ⟨fuel', rfl⟩ : ∃ k, fuel' = k + 1 := ⟨fuel' - 1, by omega⟩
  have hspace := hd.space
  rw [entries] at hclean ⊢
  cases hcs : d.space.rest with
  | nil =>
    simp only [hcs] at hclean
    exact absurd hclean.ordinary (not_ordinary_missing d)
  | cons c cs =>
    obtain ⟨hfeed, cs', hcs'⟩ : c ≠ '\n' ∧ ∃ cs', d'.space.rest = c :: cs' :=
      hd.head_layout (Nat.lt_succ_self _) (Nat.lt_succ_self _) hcs
    have hsign := hspace.sign hcs hfeed
    have hstops : stopsHere (c :: cs') = stopsHere (c :: cs) := rfl
    simp only [entries, hcs, hcs', hstops] at hclean ⊢
    split
    · exact hsign
    rename_i hclosing
    rw [if_neg hclosing] at hclean
    split
    · rename_i hcomma
      rw [if_pos hcomma] at hclean
      exact h.entries l (by omega) hsign hclean
    rename_i hcomma
    rw [if_neg hcomma] at hclean
    split
    · rename_i hstop
      rw [if_pos hstop] at hclean
      exact absurd hclean.ordinary (not_ordinary_missing d)
    · rename_i hstop
      rw [if_neg hstop] at hclean
      have hentry := ((reads fuel).entriesAfter l _).clean hclean
      have he := h.entry l (Nat.le_of_succ_le_succ hfuel) hspace hentry (ended_of_entriesAfter hclean)
      exact h.entriesAfter l (Nat.le_of_succ_le_succ hfuel) he hclean

theorem echoed_entriesAfter (h : Echoes source source' fuel) (l : Listing) :
    Echoed source source' (fuel + 1) (entriesAfter (fuel + 1) l) fun fuel => entriesAfter fuel l := by
  intro fuel' d d' hfuel hd hclean
  obtain ⟨fuel', rfl⟩ : ∃ k, fuel' = k + 1 := ⟨fuel' - 1, by omega⟩
  rw [entriesAfter] at hclean ⊢
  cases hcs : d.gap.rest with
  | nil =>
    simp only [hcs] at hclean
    exact absurd hclean.ordinary (not_ordinary_missing d)
  | cons c cs =>
    obtain ⟨hfeed, cs', hcs'⟩ : c ≠ '\n' ∧ ∃ cs', d'.gap.rest = c :: cs' :=
      hd.head_layout (Nat.lt_succ_self _) (Nat.lt_succ_self _) hcs
    have hsign := hd.gap.sign hcs hfeed
    have hstops : stopsHere (c :: cs') = stopsHere (c :: cs) := rfl
    simp only [entriesAfter, hcs, hcs', hstops] at hclean ⊢
    split
    · exact hsign
    rename_i hclosing
    rw [if_neg hclosing] at hclean
    split
    · rename_i hcomma
      rw [if_pos hcomma] at hclean
      exact h.entries l (by omega) hsign hclean
    rename_i hcomma
    rw [if_neg hcomma] at hclean
    split at hclean
    · exact absurd hclean.ordinary (not_ordinary_missing d)
    · exact absurd (((reads fuel).entriesAfter l _).ordinary hclean.ordinary) (not_ordinary_append_close rfl)

theorem echoed_entry (h : Echoes source source' fuel) (l : Listing) :
    EchoedAtEnd source source' (fuel + 1) (entry (fuel + 1) l) fun fuel => entry fuel l := by
  intro fuel' d d' hfuel hd hclean hended
  obtain ⟨fuel', rfl⟩ : ∃ k, fuel' = k + 1 := ⟨fuel' - 1, by omega⟩
  have hspread : ¬ d.beginsWith "..." = true := by
    intro hspread
    rw [entry.eq_def] at hclean
    simp only [hspread, if_true] at hclean
    exact not_ordinary_append_close rfl hclean.ordinary
  have hspread' : ¬ d'.beginsWith "..." = true := by
    rwa [hd.beginsWith (by decide)]
  have hfuel := Nat.le_of_succ_le_succ hfuel
  cases l with
  | members =>
    simp only [entry, if_neg hspread, if_neg hspread'] at hclean hended ⊢
    exact h.member hfuel hd hclean hended
  | items =>
    simp only [entry, if_neg hspread, if_neg hspread'] at hclean hended ⊢
    exact h.expression hfuel hd hclean hended
  | values =>
    simp only [entry, if_neg hspread, if_neg hspread'] at hclean hended ⊢
    exact h.expression hfuel hd hclean hended

/-! ### Members -/

/-- What a member ends with leaves its name as it is. -/
theorem clean_of_memberTail {start : Text.Cursor source} (hclean : Clean (memberTail fuel start e).nodes) :
    ∃ k cs, fuel = k + 1 ∧ e.space.rest = ':' :: cs ∧ Clean e.nodes := by
  cases fuel with
  | zero => exact absurd hclean.ordinary (not_ordinary_missing e)
  | succ fuel =>
    rw [memberTail] at hclean
    split at hclean
    · rename_i cs hcs
      have hvalue := ((reads fuel).expression _).clean (clean_close_iff.mp hclean).2
      have hsign := (clean_cons_iff.mp ((adds_space_all _).clean hvalue)).2
      exact ⟨fuel, cs, rfl, hcs, (adds_space_all e).clean hsign⟩
    · exact absurd (clean_close_iff.mp hclean).1 Bool.false_ne_true
    · split at hclean
      · split at hclean
        · exact absurd (clean_close_iff.mp hclean).1 Bool.false_ne_true
        · rename_i hnodes _
          rw [retag, hnodes] at hclean
          exact absurd (clean_cons_iff.mp hclean).1.isPlain Bool.false_ne_true
      · exact absurd (clean_close_iff.mp hclean).2.ordinary (not_ordinary_missing e)

theorem echoed_memberTail (h : Echoes source source' fuel) (start : Text.Cursor source) (start' : Text.Cursor source') :
    EchoedAtEnd source source' (fuel + 1) (memberTail (fuel + 1) start)
      fun fuel => memberTail fuel start' := by
  intro fuel' e e' hfuel he hclean hended
  obtain ⟨fuel', rfl⟩ : ∃ k, fuel' = k + 1 := ⟨fuel' - 1, by omega⟩
  obtain ⟨-, cs, -, hcs, -⟩ := clean_of_memberTail hclean
  obtain ⟨cs', hcs'⟩ := he.space.head hcs (by decide)
  rw [memberTail_of_colon start hcs] at hclean hended ⊢
  simp only
  rw [memberTail_of_colon start' hcs']
  have hvalue := h.expression (Nat.le_of_succ_le_succ hfuel) (he.space.sign hcs (by decide)).space
    (clean_close_iff.mp hclean).2 hended.of_close
  exact hvalue.close .pair start start'

theorem echoed_member (h : Echoes source source' fuel) : EchoedAtEnd source source' (fuel + 1) (member (fuel + 1)) member := by
  intro fuel' d d' hfuel hd hclean hended
  obtain ⟨fuel', rfl⟩ : ∃ k, fuel' = k + 1 := ⟨fuel' - 1, by omega⟩
  have hword := (hd.inLine .punctuation inLine_word).gap
  have hmodifier : (["async", "get", "set", "static"].contains d'.word &&
      (startsProperty (d'.wordToken .punctuation).gap.rest ||
        (d'.wordToken .punctuation).gap.beginsWith "*")) =
      (["async", "get", "set", "static"].contains d.word &&
        (startsProperty (d.wordToken .punctuation).gap.rest ||
          (d.wordToken .punctuation).gap.beginsWith "*")) := by
    have hstar : (d'.wordToken .punctuation).gap.beginsWith "*" =
        (d.wordToken .punctuation).gap.beginsWith "*" := hword.beginsWith (by decide)
    have hproperty : startsProperty (d'.wordToken .punctuation).gap.rest =
        startsProperty (d.wordToken .punctuation).gap.rest :=
      hword.rest.eq_of_bounded bounded_startsProperty
    rw [hd.word, hstar, hproperty]
  rw [member] at hclean hended ⊢
  simp only at hclean hended ⊢
  rw [member]
  simp only
  rw [hd.beginsWith (s := "*") (by decide), hmodifier,
    hd.rest.eq_of_bounded bounded_startsProperty]
  split
  · rename_i hmethod
    rw [if_pos hmethod] at hclean
    exact absurd hclean.ordinary (not_ordinary_append_close rfl)
  rename_i hmethod
  rw [if_neg hmethod] at hclean hended
  split
  · rename_i hmodified
    rw [if_pos hmodified] at hclean
    exact absurd hclean.ordinary (not_ordinary_append_close rfl)
  rename_i hmodified
  rw [if_neg hmodified] at hclean hended
  split
  · rename_i hproperty
    rw [if_pos hproperty] at hclean hended
    have htail := (clean_append_iff.mp hclean).1
    obtain ⟨k, cs, -, -, hname⟩ := clean_of_memberTail htail
    have hnames := h.propertyName (Nat.le_of_succ_le_succ hfuel) hd.fresh hname
    exact hd.append (h.memberTail _ _ (Nat.le_of_succ_le_succ hfuel) hnames htail hended.of_append)
  · rename_i hproperty
    rw [if_neg hproperty] at hclean
    exact absurd hclean.ordinary (not_ordinary_append_close rfl)

end Steps

theorem echoes_succ {fuel : Nat} (h : Echoes source source' fuel) : Echoes source source' (fuel + 1) where
  expression := echoed_expression h
  operand := echoed_operand h
  postfixed := echoed_postfixed h
  primary := echoed_primary h
  worded := echoed_worded
  entries := echoed_entries h
  entriesAfter := echoed_entriesAfter h
  entry := echoed_entry h
  member := echoed_member h
  memberTail := echoed_memberTail h
  propertyName := echoed_propertyName

theorem echoes (source source' : List Char) (fuel : Nat) : Echoes source source' fuel := by
  induction fuel with
  | zero => exact echoes_zero
  | succ fuel ih => exact echoes_succ ih

end Workyard.Script
