import Workyard.Proofs.Text.Tidying

/-!
# Kept lines

The lines that the first occurrence of a text touches are written as they are. The lines above them
and below them are tidied as if those that are kept were any lines that are not blank.
-/

namespace Workyard.Text

set_option autoImplicit false

/-- How a text lies around the first occurrence of a part: the lines above those that the part
touches, what stands before it and after it on these, and the lines below. -/
structure Around (part cs : List Char) (above : List (List Char)) (head tail : List Char)
    (below : List (List Char)) : Prop where
  text : cs = terminated above ++ (head ++ part ++ tail) ++ below.flatMap ('\n' :: ·)
  above_lines : ∀ l ∈ above, '\n' ∉ l
  head_line : '\n' ∉ head
  tail_line : '\n' ∉ tail
  below_lines : ∀ l ∈ below, '\n' ∉ l
  first : ∀ before after, cs = before ++ part ++ after →
    (terminated above ++ head).length ≤ before.length

variable {part cs ds head tail : List Char} {above below ls ms : List (List Char)}

/-! ### Texts and their lines -/

theorem terminated_splitAt (cs : List Char) : terminated (splitAt '\n' cs) = cs ++ ['\n'] :=
  flatMap_splitAt cs

theorem joinWith_cons (l : List Char) (ls : List (List Char)) :
    joinWith ['\n'] (l :: ls) = l ++ ls.flatMap ('\n' :: ·) := by
  induction ls generalizing l with
  | nil => simp [joinWith]
  | cons m ls ih =>
    rw [joinWith_cons_of_ne_nil (List.cons_ne_nil m ls), ih]
    simp

theorem joinWith_append_cons (ls : List (List Char)) (l : List Char) (ms : List (List Char)) :
    joinWith ['\n'] (ls ++ l :: ms) = terminated ls ++ l ++ ms.flatMap ('\n' :: ·) := by
  induction ls with
  | nil => rw [List.nil_append, joinWith_cons]; rfl
  | cons m ls ih =>
    rw [List.cons_append, joinWith_cons_of_ne_nil (by simp), ih]
    simp

theorem joinWith_concat (ls : List (List Char)) (l : List Char) :
    joinWith ['\n'] (ls ++ [l]) = terminated ls ++ l := by
  rw [joinWith_append_cons, List.flatMap_nil, List.append_nil]

theorem splitAt_append_flatMap (h : ∀ l ∈ ls, '\n' ∉ l) (ds : List Char) :
    splitAt '\n' (ds ++ ls.flatMap ('\n' :: ·)) = splitAt '\n' ds ++ ls := by
  induction ls generalizing ds with
  | nil => simp
  | cons l ls ih =>
    have hl := splitAt_of_not_mem (h l List.mem_cons_self)
    rw [List.flatMap_cons, List.cons_append, splitAt_append_cons,
      ih (fun m hm => h m (List.mem_cons_of_mem l hm)), hl]
    rfl

/-! ### First occurrences -/

/-- A part that a text has is found where it is first. -/
theorem exists_occurrence (hne : part ≠ []) (h : part <:+: cs) : ∃ before after,
    cs = before ++ part ++ after ∧
      occurrence? part cs = some ⟨before.length, before.length + part.length⟩ := by
  obtain ⟨before, after, rfl⟩ := h
  obtain ⟨first, rest, heq, -, hindex⟩ := indexOf?_append before part after
  refine ⟨first, rest, heq, ?_⟩
  rw [occurrence?, if_neg hne, hindex]
  rfl

theorem not_infix_of_indexOf? (h : indexOf? part cs = none) : ¬ part <:+: cs := by
  rintro ⟨before, after, rfl⟩
  obtain ⟨first, rest, -, -, hindex⟩ := indexOf?_append before part after
  exact absurd (h.symm.trans hindex) (by simp)

theorem occurrence?_eq_none (h : indexOf? part cs = none) : occurrence? part cs = none := by
  rw [occurrence?, h]
  exact ite_self none

theorem exists_around (h : part <:+: cs) : ∃ above head tail below,
    Around part cs above head tail below := by
  obtain ⟨before, after, rfl⟩ := h
  obtain ⟨first, rest, heq, -, hindex⟩ := indexOf?_append before part after
  obtain ⟨above, head, habove⟩ := (List.eq_nil_or_concat' (splitAt '\n' first)).resolve_left
    (splitAt_ne_nil '\n' first)
  obtain ⟨tail, below, hbelow⟩ := List.exists_cons_of_ne_nil (splitAt_ne_nil '\n' rest)
  have hfirst : first = terminated above ++ head := by
    rw [← joinWith_concat, ← habove, joinWith_splitAt]
  have hrest : rest = tail ++ below.flatMap ('\n' :: ·) := by
    rw [← joinWith_cons, ← hbelow, joinWith_splitAt]
  have hmemFirst : ∀ l ∈ above ++ [head], '\n' ∉ l :=
    fun l hl => not_mem_of_mem_splitAt (habove ▸ hl)
  have hmemRest : ∀ l ∈ tail :: below, '\n' ∉ l :=
    fun l hl => not_mem_of_mem_splitAt (hbelow ▸ hl)
  refine ⟨above, head, tail, below, ?_, fun l hl => hmemFirst l (List.mem_append_left _ hl),
    hmemFirst head (by simp), hmemRest tail List.mem_cons_self,
    fun l hl => hmemRest l (List.mem_cons_of_mem _ hl), ?_⟩
  · rw [heq, hfirst, hrest]
    simp only [List.append_assoc]
  · intro before' after' hother
    obtain ⟨first', rest', -, hle, hindex'⟩ := indexOf?_append before' part after'
    rw [← hother, hindex, Option.some.injEq] at hindex'
    rw [← hfirst, hindex']
    exact hle

namespace Around

variable (h : Around part cs above head tail below)
include h

theorem lines : splitAt '\n' cs = above ++ (splitAt '\n' (head ++ part ++ tail) ++ below) := by
  rw [h.text, List.append_assoc, splitAt_terminated_append h.above_lines,
    splitAt_append_flatMap h.below_lines]

theorem divided :
    cs = (terminated above ++ head) ++ part ++ (tail ++ below.flatMap ('\n' :: ·)) := by
  rw [h.text]
  simp only [List.append_assoc]

theorem occurs : part <:+: cs :=
  ⟨_, _, h.divided.symm⟩

theorem occurrence (hne : part ≠ []) : occurrence? part cs =
    some ⟨(terminated above ++ head).length, (terminated above ++ head).length + part.length⟩ := by
  obtain ⟨first, rest, heq, hle, hindex⟩ := indexOf?_append (terminated above ++ head) part
    (tail ++ below.flatMap ('\n' :: ·))
  rw [← h.divided] at heq hindex
  have hlength : first.length = (terminated above ++ head).length :=
    Nat.le_antisymm hle (h.first first rest heq)
  rw [occurrence?, if_neg hne, hindex, hlength]
  rfl

end Around

/-! ### Marking lines -/

theorem markLines_append (kept : Option Span) (start : Nat) (ls ms : List (List Char)) :
    markLines kept start (ls ++ ms) =
      markLines kept start ls ++ markLines kept (start + (terminated ls).length) ms := by
  induction ls generalizing start with
  | nil => rfl
  | cons l ls ih =>
    rw [List.cons_append, markLines, markLines, ih, terminated_cons, List.length_append,
      List.length_cons]
    simp only [List.cons_append, Nat.add_assoc, Nat.add_comm 1]

/-- Lines that a span touches all, or none of which it touches. -/
theorem markLines_eq_map {s : Span} {start : Nat} {kept : Bool}
    (h : ∀ xs l ys, ls = xs ++ l :: ys →
      s.touches (start + (terminated xs).length) (start + (terminated xs).length + l.length) =
        kept) :
    markLines (some s) start ls = ls.map (⟨·, kept⟩) := by
  induction ls generalizing start with
  | nil => rfl
  | cons l ls ih =>
    have hfirst := h [] l ls rfl
    simp only [terminated_nil, List.length_nil, Nat.add_zero] at hfirst
    rw [markLines, List.map_cons, ih]
    · simp only [Option.map_some, Option.getD_some, hfirst]
    · intro xs m ys heq
      have hrest := h (l :: xs) m ys (by rw [heq]; rfl)
      rw [terminated_cons, List.length_append, List.length_cons] at hrest
      rw [← hrest]
      congr 1 <;> omega

theorem length_of_line {xs : List (List Char)} {l : List Char} {ys : List (List Char)}
    (h : ls = xs ++ l :: ys) :
    (terminated xs).length + l.length < (terminated ls).length := by
  rw [h, terminated_append, terminated_cons]
  simp only [List.length_append, List.length_cons]
  omega

/-- Lines before a span. -/
theorem markLines_before {s : Span} {start : Nat} (h : start + (terminated ls).length ≤ s.start) :
    markLines (some s) start ls = ls.map (⟨·, false⟩) := by
  refine markLines_eq_map fun xs l ys heq => ?_
  have hlength := length_of_line heq
  simp only [Span.touches, Bool.and_eq_false_iff, decide_eq_false_iff_not]
  omega

/-- Lines behind a span. -/
theorem markLines_behind {s : Span} {start : Nat} (h : s.stop ≤ start) :
    markLines (some s) start ls = ls.map (⟨·, false⟩) := by
  refine markLines_eq_map fun xs l ys _ => ?_
  simp only [Span.touches, Bool.and_eq_false_iff, decide_eq_false_iff_not]
  omega

/-- A feed of a text stands behind the first character of a part that begins on the first line. -/
theorem length_lt_of_feed {u v : List Char} (hne : part ≠ []) (hhead : '\n' ∉ head)
    (hstart : part.head? ≠ some '\n') (h : head ++ (part ++ tail) = u ++ '\n' :: v) :
    head.length < u.length := by
  rcases List.append_eq_append_iff.mp h with ⟨w, rfl, hw⟩ | ⟨w, rfl, hw⟩
  · cases w with
    | nil =>
      obtain ⟨c, part, rfl⟩ := List.exists_cons_of_ne_nil hne
      exact absurd (congrArg some (List.cons.inj hw).1) hstart
    | cons c w => simp
  · cases w with
    | nil =>
      obtain ⟨c, part, rfl⟩ := List.exists_cons_of_ne_nil hne
      exact absurd (congrArg some (List.cons.inj hw).1.symm) hstart
    | cons c w =>
      obtain ⟨rfl, -⟩ := List.cons.inj hw
      exact absurd (List.mem_append_right u List.mem_cons_self) hhead

/-- A feed of a text stands before the last character of a part that ends on the last line. -/
theorem feed_lt_length {u v : List Char} (hne : part ≠ []) (htail : '\n' ∉ tail)
    (hstop : part.getLast? ≠ some '\n') (h : head ++ part ++ tail = u ++ '\n' :: v) :
    u.length + 1 < (head ++ part).length := by
  have hreverse : tail.reverse ++ (part.reverse ++ head.reverse) =
      v.reverse ++ '\n' :: u.reverse := by
    simpa using congrArg List.reverse h
  have hlt := length_lt_of_feed (by simpa using hne) (by simpa using htail)
    (by simpa using hstop) hreverse
  have hlength := congrArg List.length h
  simp only [List.length_reverse] at hlt
  simp only [List.length_append, List.length_cons] at hlength ⊢
  omega

/-- Every line of a text touches a part of it that begins on the first line and ends on the last
one, and not with the feed of a line. -/
theorem markLines_touched (start : Nat) (hne : part ≠ []) (hhead : '\n' ∉ head)
    (htail : '\n' ∉ tail) (hstart : part.head? ≠ some '\n') (hstop : part.getLast? ≠ some '\n') :
    markLines (some ⟨start + head.length, start + head.length + part.length⟩) start
        (splitAt '\n' (head ++ part ++ tail)) =
      (splitAt '\n' (head ++ part ++ tail)).map (⟨·, true⟩) := by
  refine markLines_eq_map fun xs l ys heq => ?_
  have hjoin : head ++ part ++ tail = terminated xs ++ l ++ ys.flatMap ('\n' :: ·) := by
    rw [← joinWith_append_cons, ← heq, joinWith_splitAt]
  have hpos := List.length_pos_iff.mpr hne
  have hbefore : (terminated xs).length < head.length + part.length := by
    rcases List.eq_nil_or_concat' xs with rfl | ⟨xs, m, rfl⟩
    · simp only [terminated_nil, List.length_nil]
      omega
    · have hfeed : head ++ part ++ tail =
          (terminated xs ++ m) ++ '\n' :: (l ++ ys.flatMap ('\n' :: ·)) := by
        rw [hjoin]
        simp
      have hlt := feed_lt_length hne htail hstop hfeed
      simp only [terminated_append, terminated_cons, terminated_nil, List.length_append,
        List.length_cons, List.length_nil] at hlt ⊢
      omega
  have hbehind : head.length < (terminated xs).length + l.length := by
    cases ys with
    | nil =>
      have hlength := congrArg List.length hjoin
      simp only [List.length_append, List.flatMap_nil, List.length_nil] at hlength
      omega
    | cons m ys =>
      rw [List.append_assoc, List.flatMap_cons, List.cons_append] at hjoin
      simpa using length_lt_of_feed hne hhead hstart hjoin
  simp only [Span.touches, Bool.and_eq_true, decide_eq_true_eq]
  omega

/-! ### Tidying around a part -/

/-- Kept lines are written as they are. -/
theorem writeLines_kept (ls : List (List Char)) (rest : List Line) :
    writeLines .none (ls.map (⟨·, true⟩) ++ rest) =
      terminated ls ++ writeLines .none rest := by
  induction ls with
  | nil => rfl
  | cons l ls ih =>
    have hdropped : (⟨l, true⟩ : Line).isDropped = false := rfl
    rw [List.map_cons, List.cons_append, writeLines, if_neg (by simp [hdropped]), ih]
    simp [Gap.text, Line.shown]

/-- Lines some of which are kept, with others above and below. -/
theorem writeLines_around {ls : List (List Char)} (hne : ls ≠ []) (above below : List (List Char)) :
    writeLines .top (above.map (⟨·, false⟩) ++ (ls.map (⟨·, true⟩) ++ below.map (⟨·, false⟩))) =
      terminated (squeeze (dropTop (above.map trimRight))) ++
        (terminated ls ++ terminated (squeeze (dropEnd (below.map trimRight)))) := by
  obtain ⟨l, ls, rfl⟩ := List.exists_cons_of_ne_nil hne
  have hdropped : (⟨l, true⟩ : Line).isDropped = false := rfl
  have hbelow := @writeLines_unkept .none (by decide) below
  rw [List.map_cons, List.cons_append, writeLines_above .top above hdropped, writeLines_kept,
    hbelow, terminated_cons, List.append_assoc]
  rfl

/-- The lines that a part touches stay, and the others are tidied. -/
theorem tidyChars_around {keep content : List Char}
    (h : Around (unixLines keep) (unixLines content) above head tail below)
    (hne : unixLines keep ≠ []) (hstart : (unixLines keep).head? ≠ some '\n')
    (hstop : (unixLines keep).getLast? ≠ some '\n') :
    tidyChars keep content =
      terminated (squeeze (dropTop (above.map trimRight))) ++
        ((head ++ unixLines keep ++ tail ++ ['\n']) ++
          terminated (squeeze (dropEnd (below.map trimRight)))) := by
  have hmarks : markLines (occurrence? (unixLines keep) (unixLines content)) 0
      (splitAt '\n' (unixLines content)) =
      above.map (⟨·, false⟩) ++ ((splitAt '\n' (head ++ unixLines keep ++ tail)).map (⟨·, true⟩) ++
        below.map (⟨·, false⟩)) := by
    have htouched := markLines_touched (terminated above).length hne h.head_line h.tail_line
      hstart hstop
    rw [h.occurrence hne, h.lines, markLines_append, markLines_append, Nat.zero_add,
      List.length_append, htouched, markLines_before, markLines_behind]
    · rw [terminated_splitAt]
      simp only [List.length_append]
      omega
    · simp
  unfold tidyChars
  simp only [hmarks, writeLines_around (splitAt_ne_nil _ _), terminated_splitAt]

/-- A text that is kept is found again. -/
theorem infix_tidyChars {keep content : List Char} (hne : unixLines keep ≠ [])
    (hstart : (unixLines keep).head? ≠ some '\n') (hstop : (unixLines keep).getLast? ≠ some '\n')
    (hoccurs : unixLines keep <:+: unixLines content) :
    unixLines keep <:+: tidyChars keep content := by
  obtain ⟨above, head, tail, below, h⟩ := exists_around hoccurs
  refine ⟨terminated (squeeze (dropTop (above.map trimRight))) ++ head,
    tail ++ ['\n'] ++ terminated (squeeze (dropEnd (below.map trimRight))), ?_⟩
  rw [tidyChars_around h hne hstart hstop]
  simp only [List.append_assoc]

/-- The first occurrence of a text that is kept stays with the lines that it touches. The lines
above and below are trimmed, and the runs of blank lines among them are squeezed. -/
theorem tidy_keeps {content keep : String} (hne : unixLines keep.toList ≠ [])
    (hstart : (unixLines keep.toList).head? ≠ some '\n')
    (hstop : (unixLines keep.toList).getLast? ≠ some '\n')
    (hoccurs : unixLines keep.toList <:+: unixLines content.toList) :
    ∃ above head tail below,
      Around (unixLines keep.toList) (unixLines content.toList) above head tail below ∧
      (tidy content (some keep)).toList =
        terminated (squeeze (dropTop (above.map trimRight))) ++
          ((head ++ unixLines keep.toList ++ tail ++ ['\n']) ++
            terminated (squeeze (dropEnd (below.map trimRight)))) ∧
      unixLines keep.toList <:+: (tidy content (some keep)).toList ∧
      (squeeze (dropTop (above.map trimRight))).filter (!·.isEmpty) =
        (above.map trimRight).filter (!·.isEmpty) ∧
      (squeeze (dropEnd (below.map trimRight))).filter (!·.isEmpty) =
        (below.map trimRight).filter (!·.isEmpty) := by
  obtain ⟨above, head, tail, below, h⟩ := exists_around hoccurs
  have htidy : (tidy content (some keep)).toList =
      terminated (squeeze (dropTop (above.map trimRight))) ++
        ((head ++ unixLines keep.toList ++ tail ++ ['\n']) ++
          terminated (squeeze (dropEnd (below.map trimRight)))) :=
    String.toList_ofList.trans (tidyChars_around h hne hstart hstop)
  refine ⟨above, head, tail, below, h, htidy, ?_, ?_, ?_⟩
  · rw [tidy, String.toList_ofList]
    exact infix_tidyChars hne hstart hstop hoccurs
  · rw [filter_squeeze, filter_dropTop]
  · rw [filter_squeeze, filter_dropEnd]

/-- A template literal with white space at the end of a line and a blank line. -/
def keptTemplate : String :=
  "`x  \r\n\n y`"

/-- The template literal with other line ends, and with blank lines above it and below it. -/
def textAroundTemplate : String :=
  "a  \r\n\r\n\r\n f(`x  \r\n\r y`);  \n\n\nb  "

theorem tidy_keeps_template :
    unixLines keptTemplate.toList ≠ [] ∧ (unixLines keptTemplate.toList).head? ≠ some '\n' ∧
      (unixLines keptTemplate.toList).getLast? ≠ some '\n' ∧
      unixLines keptTemplate.toList <:+: unixLines textAroundTemplate.toList ∧
      ∃ above head tail below,
        Around (unixLines keptTemplate.toList) (unixLines textAroundTemplate.toList)
          above head tail below ∧
        (tidy textAroundTemplate (some keptTemplate)).toList =
          terminated (squeeze (dropTop (above.map trimRight))) ++
            ((head ++ unixLines keptTemplate.toList ++ tail ++ ['\n']) ++
              terminated (squeeze (dropEnd (below.map trimRight)))) ∧
        unixLines keptTemplate.toList <:+: (tidy textAroundTemplate (some keptTemplate)).toList := by
  have hne : unixLines keptTemplate.toList ≠ [] := by decide
  have hstart : (unixLines keptTemplate.toList).head? ≠ some '\n' := by decide
  have hstop : (unixLines keptTemplate.toList).getLast? ≠ some '\n' := by decide
  have hoccurs : unixLines keptTemplate.toList <:+: unixLines textAroundTemplate.toList :=
    ⟨"a  \n\n\n f(".toList, ");  \n\n\nb  ".toList, by decide⟩
  obtain ⟨above, head, tail, below, haround, htidy, hwithin, -⟩ :=
    tidy_keeps hne hstart hstop hoccurs
  exact ⟨hne, hstart, hstop, hoccurs, above, head, tail, below, haround, htidy, hwithin⟩

end Workyard.Text
