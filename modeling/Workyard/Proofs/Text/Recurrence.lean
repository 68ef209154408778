import Workyard.Proofs.Text.Settled

/-!
# Keeping a part again

A text that was tidied around a part still has the part, but the part may now stand earlier in it,
where a line above lost its white space or a run of blank lines was squeezed. The lines around that
earlier place are kept when the text is tidied again, and those that were kept first are tidied. The
part then repeats what stands before it, so that it has a line end and no blemish.
-/

namespace Workyard.Text

set_option autoImplicit false

/-- What tidying makes of the lines above those that are kept. -/
def tidyAbove (ls : List (List Char)) : List (List Char) :=
  squeeze (dropTop (ls.map trimRight))

/-- What tidying makes of the lines below those that are kept. -/
def tidyBelow (ls : List (List Char)) : List (List Char) :=
  squeeze (dropEnd (ls.map trimRight))

/-- The part is first where it was before the text around it was tidied. -/
def FoundAgain (part cs ds : List Char) : Prop :=
  ∃ above head tail below, Around part cs above head tail below ∧
    Around part ds (tidyAbove above) head tail (tidyBelow below ++ [[]])

/-- Tidying a second time, with the same part kept, changes nothing. -/
def Steady (content keep : String) : Prop :=
  tidy (tidy content (some keep)) (some keep) = tidy content (some keep)

variable {part cs front before head tail : List Char} {above below ls : List (List Char)}

/-! ### Lines that are tidy -/

section TidyLines

variable {l : List Char}

theorem exists_of_mem_tidyAbove (h : l ∈ tidyAbove ls) : ∃ m ∈ ls, l = trimRight m := by
  have hdrop : l ∈ ls.map trimRight := (List.dropWhile_suffix _).subset (mem_of_mem_squeeze h)
  obtain ⟨m, hm, rfl⟩ := List.mem_map.mp hdrop
  exact ⟨m, hm, rfl⟩

theorem exists_of_mem_tidyBelow (h : l ∈ tidyBelow ls) : ∃ m ∈ ls, l = trimRight m := by
  have hdrop : l ∈ ls.map trimRight := (List.rdropWhile_prefix _ _).subset (mem_of_mem_squeeze h)
  obtain ⟨m, hm, rfl⟩ := List.mem_map.mp hdrop
  exact ⟨m, hm, rfl⟩

/-- Trimmed lines without line ends of their own, no two in a row blank. -/
structure TidyLines (ls : List (List Char)) : Prop where
  no_feed : ∀ l ∈ ls, '\n' ∉ l
  trimmed : ∀ l ∈ ls, trimRight l = l
  between : ls.IsChain NotBothBlank

theorem TidyLines.of_cons (h : TidyLines (l :: ls)) : TidyLines ls where
  no_feed m hm := h.no_feed m (List.mem_cons_of_mem l hm)
  trimmed m hm := h.trimmed m (List.mem_cons_of_mem l hm)
  between := h.between.tail

theorem TidyLines.map_trimRight (h : TidyLines ls) : ls.map trimRight = ls :=
  (List.map_congr_left h.trimmed).trans (List.map_id _)

theorem tidyLines_of_trimmed (h : ∀ l ∈ ls, '\n' ∉ l)
    {ms : List (List Char)} (hms : ∀ l ∈ ms, ∃ m ∈ ls, l = trimRight m)
    (hbetween : ms.IsChain NotBothBlank) : TidyLines ms where
  no_feed l hl := by
    obtain ⟨m, hm, rfl⟩ := hms l hl
    exact fun hc => h m hm ((prefix_trimRight m).subset hc)
  trimmed l hl := by
    obtain ⟨m, -, rfl⟩ := hms l hl
    exact trimRight_trimRight m
  between := hbetween

theorem tidyLines_tidyAbove (h : ∀ l ∈ ls, '\n' ∉ l) : TidyLines (tidyAbove ls) :=
  tidyLines_of_trimmed h (fun _ hl => exists_of_mem_tidyAbove hl) (List.isChain_destutter _ _)

theorem tidyLines_tidyBelow (h : ∀ l ∈ ls, '\n' ∉ l) : TidyLines (tidyBelow ls) :=
  tidyLines_of_trimmed h (fun _ hl => exists_of_mem_tidyBelow hl) (List.isChain_destutter _ _)

theorem head?_tidyAbove (ls : List (List Char)) : (tidyAbove ls).head? ≠ some [] := by
  rw [tidyAbove, head?_squeeze]
  exact head?_dropTop _

theorem getLast?_tidyBelow (ls : List (List Char)) : (tidyBelow ls).getLast? ≠ some [] := by
  rw [tidyBelow, getLast?_squeeze]
  exact getLast?_dropEnd _

theorem tidyAbove_tidyAbove (h : ∀ l ∈ ls, '\n' ∉ l) : tidyAbove (tidyAbove ls) = tidyAbove ls := by
  have htidy := tidyLines_tidyAbove h
  have htop : dropTop (tidyAbove ls) = tidyAbove ls := by
    cases hcons : tidyAbove ls with
    | nil => rfl
    | cons l ms => exact dropTop_cons fun hl => head?_tidyAbove ls (by rw [hcons, hl]; rfl)
  conv_lhs => rw [tidyAbove, htidy.map_trimRight, htop]
  exact List.destutter_of_isChain _ _ htidy.between

theorem tidyBelow_tidyBelow (h : ∀ l ∈ ls, '\n' ∉ l) :
    tidyBelow (tidyBelow ls ++ [[]]) = tidyBelow ls := by
  have htidy := tidyLines_tidyBelow h
  have hblank : [([] : List Char)].map trimRight = [[]] := rfl
  have hend : dropEnd (tidyBelow ls) = tidyBelow ls := by
    rcases List.eq_nil_or_concat' (tidyBelow ls) with hnil | ⟨ms, l, hlast⟩
    · rw [hnil]
      rfl
    · rw [hlast]
      exact dropEnd_concat fun hl => getLast?_tidyBelow ls (by rw [hlast, hl, List.getLast?_concat])
  conv_lhs => rw [tidyBelow, List.map_append, htidy.map_trimRight, hblank, dropEnd_concat_blank, hend]
  exact List.destutter_of_isChain _ _ htidy.between

/-- A line that is not blank divides the blemishes above it from those below it. -/
theorem Spotless.append_line (hcs : Spotless cs) (hfeed : '\n' ∉ l) (htrim : trimRight l = l)
    (hne : l ≠ []) (h : Spotless ('\n' :: terminated ls)) : Spotless (cs ++ terminated (l :: ls)) := by
  have hline : Spotless (cs ++ l) := hcs.append (.of_no_feed hfeed) (.inr (.inr hfeed))
  have hends := (endsVisibly_of_trimmed htrim hne).append cs
  rw [terminated_cons, ← List.append_assoc]
  exact hline.append h (.inl hends)

theorem TidyLines.spotless (h : TidyLines ls) : Spotless ('\n' :: terminated ls) := by
  induction ls using blankRuns_induction with
  | nil => exact spotless_of_hasBlemish rfl
  | line l ls hl ih =>
    have hfeed : Spotless ['\n'] := spotless_of_hasBlemish rfl
    exact hfeed.append_line (h.no_feed l List.mem_cons_self) (h.trimmed l List.mem_cons_self) hl
      (ih h.of_cons)
  | last => exact spotless_of_hasBlemish rfl
  | between l ls hl ih =>
    have hfeeds : Spotless ['\n', '\n'] := spotless_of_hasBlemish rfl
    have hrest : Spotless ('\n' :: terminated ls) := by
      refine (ih h.of_cons).within ⟨'\n' :: l, [], ?_⟩
      simp
    exact hfeeds.append_line (h.of_cons.no_feed l List.mem_cons_self)
      (h.of_cons.trimmed l List.mem_cons_self) hl hrest
  | again ls _ => exact absurd (List.isChain_cons_cons.mp h.between).1 (by decide)

end TidyLines

/-! ### An earlier place -/

/-- In a text that ends with the part, the part stands earlier as well. -/
structure Recurs (part front before : List Char) : Prop where
  within : before ++ part <+: front ++ part
  earlier : before.length < front.length

namespace Around

variable (h : Around part cs above head tail below)
include h

/-- The part is not before its first place. -/
theorem le_of_occurs (hwithin : before ++ part <+: terminated above ++ head ++ part) :
    (terminated above ++ head).length ≤ before.length := by
  obtain ⟨rest, hrest⟩ := hwithin
  refine h.first before (rest ++ tail ++ below.flatMap ('\n' :: ·)) ?_
  rw [h.text, ← List.append_assoc, ← List.append_assoc, hrest.symm]
  simp only [List.append_assoc]

/-- The part is not in a line above. -/
theorem not_infix_above {l : List Char} (hl : l ∈ above) : ¬ part <:+: l := by
  rintro ⟨left, right, rfl⟩
  obtain ⟨xs, ys, rfl⟩ := List.append_of_mem hl
  have hle : (terminated (xs ++ (left ++ part ++ right) :: ys) ++ head).length ≤
      (terminated xs ++ left).length := by
    refine h.le_of_occurs ⟨right ++ '\n' :: terminated ys ++ head ++ part, ?_⟩
    simp
  simp only [terminated_append, terminated_cons, List.length_append, List.length_cons] at hle
  omega

theorem spotless_front : Spotless (terminated (tidyAbove above) ++ head) := by
  have habove := (tidyLines_tidyAbove h.above_lines).spotless
  have hfront := habove.append (.of_no_feed h.head_line) (.inr (.inr h.head_line))
  exact hfront.within ⟨['\n'], [], by simp⟩

end Around

theorem flatMap_concat_nil (ls : List (List Char)) :
    (ls ++ [[]]).flatMap ('\n' :: ·) = '\n' :: terminated ls := by
  induction ls with
  | nil => rfl
  | cons l ls ih => rw [List.cons_append, List.flatMap_cons, ih, terminated_cons, List.cons_append]

/-- A part without line ends lies in one line. -/
theorem exists_line_of_occurs (hne : part ≠ []) (hpart : '\n' ∉ part) {ds : List Char}
    (hwithin : before ++ part <+: terminated ls ++ ds)
    (hlt : before.length < (terminated ls).length) : ∃ l ∈ ls, part <:+: l := by
  induction ls generalizing before with
  | nil => exact absurd hlt (Nat.not_lt_zero _)
  | cons l ls ih =>
    obtain ⟨rest, hrest⟩ := hwithin
    rw [terminated_cons, List.append_assoc, List.append_assoc] at hrest
    rcases List.append_eq_append_iff.mp hrest with ⟨w, rfl, hw⟩ | ⟨w, rfl, hw⟩
    · refine ⟨before ++ w, List.mem_cons_self, ?_⟩
      rcases List.append_eq_append_iff.mp hw with ⟨right, rfl, -⟩ | ⟨right, rfl, hright⟩
      · exact ⟨before, right, by rw [List.append_assoc]⟩
      · cases right with
        | nil => exact ⟨before, [], by simp⟩
        | cons c right =>
          obtain ⟨rfl, -⟩ := List.cons.inj hright
          exact absurd (List.mem_append_right w List.mem_cons_self) hpart
    · cases w with
      | nil =>
        obtain ⟨c, part, rfl⟩ := List.exists_cons_of_ne_nil hne
        obtain ⟨rfl, -⟩ := List.cons.inj hw
        exact absurd List.mem_cons_self hpart
      | cons c w =>
        obtain ⟨rfl, hrestOfLines⟩ := List.cons.inj hw
        have hbehind : w ++ part ++ rest = terminated ls ++ ds :=
          (List.append_assoc w part rest).trans hrestOfLines.symm
        rw [terminated_cons] at hlt
        simp only [List.length_append, List.length_cons] at hlt
        obtain ⟨m, hm, hoccurs⟩ := ih ⟨rest, hbehind⟩ (by omega)
        exact ⟨m, List.mem_cons_of_mem l hm, hoccurs⟩

theorem feed_mem_of_terminated {ds : List Char} (h : terminated ls = cs ++ ds) (hne : ds ≠ []) :
    '\n' ∈ ds := by
  rcases List.eq_nil_or_concat' ls with rfl | ⟨ms, m, rfl⟩
  · exact absurd (List.append_eq_nil_iff.mp h.symm).2 hne
  · have hlast : terminated ms ++ m ++ ['\n'] = cs ++ ds.dropLast ++ [ds.getLast hne] := by
      rw [List.append_assoc cs, List.dropLast_concat_getLast, ← h]
      simp
    rw [(List.append_singleton_inj.mp hlast).2]
    exact List.getLast_mem hne

theorem exists_last_line (h : '\n' ∈ part) : ∃ upper last, part = upper ++ '\n' :: last ∧ '\n' ∉ last := by
  obtain ⟨last, upper, heq, hlast⟩ := List.eq_append_cons_of_mem (List.mem_reverse.mpr h)
  refine ⟨upper.reverse, last.reverse, ?_, by simpa using hlast⟩
  rw [← List.reverse_reverse part, heq]
  simp

theorem Recurs.exists_period (h : Recurs part front before) :
    ∃ w, w ≠ [] ∧ front = before ++ w ∧ part <+: w ++ part := by
  obtain ⟨w, rfl⟩ : before <+: front :=
    List.prefix_of_prefix_length_le ((List.prefix_append before part).trans h.within)
      (List.prefix_append front part) (Nat.le_of_lt h.earlier)
  refine ⟨w, ?_, rfl, ?_⟩
  · rintro rfl
    simpa using h.earlier
  · simpa [List.append_assoc] using h.within

namespace Recurs

variable (h : Around part cs above head tail below)
  (hr : Recurs part (terminated (tidyAbove above) ++ head) before)
include h hr

/-- The earlier place is in a line above those that are kept. -/
theorem lt_above : before.length < (terminated (tidyAbove above)).length := by
  by_contra hge
  have hfront := List.append_assoc (terminated (tidyAbove above)) head part
  obtain ⟨inside, rfl⟩ : terminated (tidyAbove above) <+: before :=
    List.prefix_of_prefix_length_le ⟨head ++ part, hfront.symm⟩
      ((List.prefix_append before part).trans hr.within) (by omega)
  have hwithin := hr.within
  rw [hfront, List.append_assoc, List.prefix_append_right_inj] at hwithin
  have hle : (terminated above ++ head).length ≤ (terminated above ++ inside).length := by
    refine h.le_of_occurs ?_
    simpa only [List.append_assoc, List.prefix_append_right_inj] using hwithin
  have hlt := hr.earlier
  simp only [List.length_append] at hle hlt
  omega

theorem feed_mem (hne : part ≠ []) : '\n' ∈ part := by
  by_contra hfeed
  have hwithin : before ++ part <+: terminated (tidyAbove above) ++ (head ++ part) := by
    rw [← List.append_assoc]
    exact hr.within
  obtain ⟨l, hl, hoccurs⟩ := exists_line_of_occurs hne hfeed hwithin (hr.lt_above h)
  obtain ⟨m, hm, rfl⟩ := exists_of_mem_tidyAbove hl
  exact h.not_infix_above hm (hoccurs.trans (prefix_trimRight m).isInfix)

/-- What recurs goes on as it began, and there is no blemish in what it repeats. -/
theorem spotless_part (hstart : part.head? ≠ some '\n') : Spotless part := by
  obtain ⟨w, hne, hw, hperiod⟩ := hr.exists_period
  have hfront := h.spotless_front
  rw [hw] at hfront
  exact (hfront.within (List.suffix_append before w).isInfix).of_recurs hne hstart hperiod

theorem tidyAbove_ne : tidyAbove above ≠ above := by
  intro heq
  rw [heq] at hr
  exact absurd (h.le_of_occurs hr.within) (Nat.not_le.mpr hr.earlier)

/-- The earlier place ends above the last of the lines that were kept, for it has as many line ends
before it as there are lines before it, and these are fewer. -/
theorem stop_le {upper last : List Char} (hpart : part = upper ++ '\n' :: last)
    (hlast : '\n' ∉ last) : before.length + part.length ≤
      (terminated (tidyAbove above) ++ head).length + upper.length + 1 := by
  by_contra hlt
  obtain ⟨u, hu⟩ : before <+: terminated (tidyAbove above) :=
    List.prefix_of_prefix_length_le ((List.prefix_append before part).trans hr.within)
      ⟨head ++ part, (List.append_assoc _ head part).symm⟩ (Nat.le_of_lt (hr.lt_above h))
  have hne : u ≠ [] := by
    rintro rfl
    have := hr.lt_above h
    rw [← hu, List.append_nil] at this
    omega
  have hfeed := List.count_pos_iff.mpr (feed_mem_of_terminated hu.symm hne)
  obtain ⟨rest, hrest⟩ : terminated (tidyAbove above) ++ head ++ upper ++ ['\n'] <+: before ++ part := by
    refine List.prefix_of_prefix_length_le ⟨last, ?_⟩ hr.within ?_
    · rw [hpart]
      simp
    · simp only [List.length_append, List.length_cons, List.length_nil] at hlt ⊢
      omega
  have hrestfeed : '\n' ∉ rest := by
    have hwithin := hr.within
    rw [← hrest, hpart] at hwithin
    have hleads : rest <+: last := by
      simpa [List.append_assoc, List.prefix_append_right_inj] using hwithin
    exact fun hmem => hlast (hleads.subset hmem)
  have hcount := congrArg (List.count '\n') hrest
  rw [hpart, ← hu] at hcount
  simp only [List.count_append, List.count_cons_self, List.count_nil,
    List.count_eq_zero_of_not_mem hlast, List.count_eq_zero_of_not_mem hrestfeed] at hcount
  omega

end Recurs

/-! ### Tidying again -/

section Again

variable {keep content ds : List Char} {part : List Char}

/-- A text that was tidied around a part has the part where it was, or earlier. -/
theorem Around.found_or_recurs (h : Around part cs above head tail below) (hne : part ≠ [])
    (hds : ds = terminated (tidyAbove above) ++
      ((head ++ part ++ tail ++ ['\n']) ++ terminated (tidyBelow below))) :
    Around part ds (tidyAbove above) head tail (tidyBelow below ++ [[]]) ∨
      ∃ first, occurrence? part ds = some ⟨first.length, first.length + part.length⟩ ∧
        Recurs part (terminated (tidyAbove above) ++ head) first := by
  have htext : ds = (terminated (tidyAbove above) ++ head) ++ part ++
      (tail ++ '\n' :: terminated (tidyBelow below)) := by
    rw [hds]
    simp
  have hoccurs : part <:+: ds := ⟨_, _, htext.symm⟩
  obtain ⟨above', head', tail', below', h'⟩ := exists_around hoccurs
  have hle := h'.first _ _ htext
  rcases Nat.eq_or_lt_of_le hle with heq | hlt
  · left
    refine ⟨?_, (tidyLines_tidyAbove h.above_lines).no_feed, h.head_line, h.tail_line, ?_, ?_⟩
    · rw [hds, flatMap_concat_nil]
      simp
    · intro l hl
      rcases List.mem_append.mp hl with hl | hl
      · exact (tidyLines_tidyBelow h.below_lines).no_feed l hl
      · rw [List.mem_singleton.mp hl]
        exact List.not_mem_nil
    · intro before' after hbefore
      exact heq ▸ h'.first before' after hbefore
  · right
    refine ⟨terminated above' ++ head', h'.occurrence hne, ?_, hlt⟩
    refine List.prefix_of_prefix_length_le ⟨_, h'.divided.symm⟩ ⟨_, htext.symm⟩ ?_
    simp only [List.length_append] at hlt ⊢
    omega

/-- The lines of a text that was tidied around a part, with the last one of those that were kept. -/
theorem terminated_around (above : List (List Char)) (head upper last tail : List Char)
    (below : List (List Char)) :
    terminated ((above ++ splitAt '\n' (head ++ upper)) ++ (last ++ tail) :: below) =
      terminated above ++ ((head ++ (upper ++ '\n' :: last) ++ tail ++ ['\n']) ++
        terminated below) := by
  rw [terminated_append, terminated_append, terminated_splitAt, terminated_cons]
  simp

theorem plain_around (hplain : ∃ ls, Plain ls ∧ ds = terminated ls) {upper last : List Char}
    (hds : ds = terminated ((above ++ splitAt '\n' (head ++ upper)) ++ (last ++ tail) :: below))
    (habove : ∀ l ∈ above, '\n' ∉ l) (hlast : '\n' ∉ last) (htail : '\n' ∉ tail)
    (hbelow : ∀ l ∈ below, '\n' ∉ l) :
    Plain ((above ++ splitAt '\n' (head ++ upper)) ++ (last ++ tail) :: below) := by
  obtain ⟨ls, hls, heq⟩ := hplain
  rw [hds] at heq
  rwa [terminated_inj ?_ (fun l hl => (hls l hl).1) heq]
  simp only [List.mem_append, List.mem_cons]
  rintro l ((hl | hl) | rfl | hl)
  · exact habove l hl
  · exact not_mem_of_mem_splitAt hl
  · simp [hlast, htail]
  · exact hbelow l hl

/-- A part that recurs has no blemish, and neither has the text around it if the last of the lines
that were kept is trimmed. -/
theorem Recurs.spotless (h : Around part cs above head tail below)
    (hr : Recurs part (terminated (tidyAbove above) ++ head) before)
    (hstart : part.head? ≠ some '\n') {upper last : List Char}
    (hpart : part = upper ++ '\n' :: last) (hlast : '\n' ∉ last) (hne : last ++ tail ≠ [])
    (htrim : trimRight (last ++ tail) = last ++ tail) :
    Spotless (terminated ((tidyAbove above ++ splitAt '\n' (head ++ upper)) ++
      (last ++ tail) :: tidyBelow below)) := by
  have hupper : Spotless (terminated (tidyAbove above ++ splitAt '\n' (head ++ upper))) := by
    refine (h.spotless_front.append_of_head? (hr.spotless_part h hstart) hstart).within
      ⟨[], last, ?_⟩
    rw [hpart, terminated_append, terminated_splitAt]
    simp
  have hfeed : '\n' ∉ last ++ tail := by
    simp [hlast, h.tail_line]
  rw [terminated_append]
  exact hupper.append_line hfeed htrim hne (tidyLines_tidyBelow h.below_lines).spotless

/-- A text in which the part recurs and that is not changed would not be changed with nothing kept
either. -/
theorem tidyChars_nil_of_recurs (h : Around (unixLines keep) cs above head tail below)
    (hne : unixLines keep ≠ []) (hstart : (unixLines keep).head? ≠ some '\n')
    (hstop : (unixLines keep).getLast? ≠ some '\n')
    (hds : ds = terminated (tidyAbove above) ++
      ((head ++ unixLines keep ++ tail ++ ['\n']) ++ terminated (tidyBelow below)))
    (hplain : ∃ ls, Plain ls ∧ ds = terminated ls) {first : List Char}
    (hfirst : occurrence? (unixLines keep) ds =
      some ⟨first.length, first.length + (unixLines keep).length⟩)
    (hr : Recurs (unixLines keep) (terminated (tidyAbove above) ++ head) first)
    (hsame : tidyChars keep ds = ds) : tidyChars [] ds = ds := by
  have habove := tidyLines_tidyAbove h.above_lines
  have hbelow := tidyLines_tidyBelow h.below_lines
  obtain ⟨upper, last, hpart, hlast⟩ := exists_last_line (hr.feed_mem h hne)
  have hlines : ds = terminated ((tidyAbove above ++ splitAt '\n' (head ++ upper)) ++
      (last ++ tail) :: tidyBelow below) := by
    rw [hds, hpart, terminated_around]
  have hplain := plain_around hplain hlines habove.no_feed hlast h.tail_line hbelow.no_feed
  have hlastne : last ++ tail ≠ [] := by
    intro hnil
    obtain ⟨rfl, -⟩ := List.append_eq_nil_iff.mp hnil
    exact hstop (by rw [hpart, List.getLast?_concat])
  have htrim : trimRight (last ++ tail) = last ++ tail := by
    rw [hlines] at hsame hfirst
    refine trimRight_of_unkept hplain hsame hfirst ?_
    have hstopLe := hr.stop_le h hpart hlast
    rw [terminated_append, terminated_splitAt]
    simp only [List.length_append, List.length_cons, List.length_nil] at hstopLe ⊢
    omega
  have hspotless := hr.spotless h hstart hpart hlast hlastne htrim
  rw [hlines]
  refine tidyChars_nil_of_spotless hplain hspotless ?_ ?_
  · obtain ⟨l, ls, hls⟩ := List.exists_cons_of_ne_nil (l := tidyAbove above) <| by
      rintro hnil
      have hlt := hr.lt_above h
      rw [hnil] at hlt
      exact absurd hlt (Nat.not_lt_zero _)
    have htop := head?_tidyAbove above
    rw [hls] at htop ⊢
    exact htop
  · rw [List.getLast?_append_of_ne_nil _ (List.cons_ne_nil _ _)]
    rcases List.eq_nil_or_concat' (tidyBelow below) with hnil | ⟨ms, m, hms⟩
    · simpa [hnil] using hlastne
    · have hbottom := getLast?_tidyBelow below
      rw [hms, List.getLast?_concat] at hbottom
      rwa [hms, ← List.cons_append, List.getLast?_concat]

theorem tidyChars_again_iff (hne : unixLines keep ≠ []) (hstart : (unixLines keep).head? ≠ some '\n')
    (hstop : (unixLines keep).getLast? ≠ some '\n') (hoccurs : unixLines keep <:+: unixLines content) :
    tidyChars keep (tidyChars keep content) = tidyChars keep content ↔
      FoundAgain (unixLines keep) (unixLines content) (tidyChars keep content) ∨
        tidyChars [] (tidyChars keep content) = tidyChars keep content := by
  obtain ⟨ls, hplain, hls⟩ := exists_plain_tidyChars keep content
  have hunix : unixLines (tidyChars keep content) = tidyChars keep content :=
    unixLines_of_no_return (hls ▸ hplain.no_return)
  constructor
  · intro hsame
    obtain ⟨above, head, tail, below, h⟩ := exists_around hoccurs
    have hds := tidyChars_around h hne hstart hstop
    rcases h.found_or_recurs hne hds with hfound | ⟨first, hfirst, hr⟩
    · exact .inl ⟨above, head, tail, below, h, hfound⟩
    · exact .inr (tidyChars_nil_of_recurs h hne hstart hstop hds ⟨ls, hplain, hls⟩ hfirst hr hsame)
  · rintro (⟨above, head, tail, below, h, hfound⟩ | htidy)
    · rw [← hunix] at hfound
      have hagain := tidyChars_around hfound hne hstart hstop
      rw [hagain, tidyChars_around h hne hstart hstop]
      have habove := tidyAbove_tidyAbove h.above_lines
      have hbelow := tidyBelow_tidyBelow h.below_lines
      unfold tidyAbove at habove
      unfold tidyBelow at hbelow
      unfold tidyAbove tidyBelow
      rw [habove, hbelow]
    · rw [hls] at htidy ⊢
      exact tidyChars_of_tidy hplain htidy keep

theorem tidyChars_of_not_occurrence (h : occurrence? (unixLines keep) (unixLines content) = none) :
    tidyChars keep content = tidyChars [] content := by
  have hnone : occurrence? (unixLines []) (unixLines content) = none := rfl
  unfold tidyChars
  simp only [h, hnone]

theorem tidyChars_nil_again (content : List Char) :
    tidyChars [] (tidyChars [] content) = tidyChars [] content := by
  rw [tidyChars_nil, tidyChars_nil, unixLines_of_no_return, tidied_tidied]
  exact not_return_mem_tidied (not_mem_unixLines content)

/-- A text in which nothing is kept is tidy. -/
theorem tidyChars_again_of_not_occurrence
    (h : occurrence? (unixLines keep) (unixLines content) = none) :
    tidyChars [] (tidyChars keep content) = tidyChars keep content ∧
      tidyChars keep (tidyChars keep content) = tidyChars keep content := by
  obtain ⟨ls, hplain, hls⟩ := exists_plain_tidyChars [] content
  have htidy := tidyChars_nil_again content
  rw [tidyChars_of_not_occurrence h]
  refine ⟨htidy, ?_⟩
  rw [hls] at htidy ⊢
  exact tidyChars_of_tidy hplain htidy keep

theorem tidyChars_again (hstart : (unixLines keep).head? ≠ some '\n')
    (hstop : (unixLines keep).getLast? ≠ some '\n') :
    tidyChars keep (tidyChars keep content) = tidyChars keep content ↔
      FoundAgain (unixLines keep) (unixLines content) (tidyChars keep content) ∨
        tidyChars [] (tidyChars keep content) = tidyChars keep content := by
  cases hkept : occurrence? (unixLines keep) (unixLines content) with
  | none =>
    obtain ⟨htidy, hsame⟩ := tidyChars_again_of_not_occurrence hkept
    exact iff_of_true hsame (.inr htidy)
  | some s =>
    exact tidyChars_again_iff (ne_nil_of_occurrence? hkept) hstart hstop (infix_of_occurrence? hkept)

/-- A part without a line end, a part with a blemish and a part below lines that are tidy already
have no earlier place to recur. -/
theorem Around.tidyChars_again (h : Around (unixLines keep) (unixLines content) above head tail below)
    (hne : unixLines keep ≠ []) (hstart : (unixLines keep).head? ≠ some '\n')
    (hstop : (unixLines keep).getLast? ≠ some '\n')
    (hcases : '\n' ∉ unixLines keep ∨ ¬ Spotless (unixLines keep) ∨ tidyAbove above = above) :
    tidyChars keep (tidyChars keep content) = tidyChars keep content := by
  rw [tidyChars_again_iff hne hstart hstop h.occurs]
  rcases h.found_or_recurs hne (tidyChars_around h hne hstart hstop) with hfound | ⟨first, -, hr⟩
  · exact .inl ⟨above, head, tail, below, h, hfound⟩
  · rcases hcases with hfeed | hblemish | htidy
    · exact absurd (hr.feed_mem h hne) hfeed
    · exact absurd (hr.spotless_part h hstart) hblemish
    · exact absurd htidy (hr.tidyAbove_ne h)

theorem tidyChars_again_of (hstart : (unixLines keep).head? ≠ some '\n')
    (hstop : (unixLines keep).getLast? ≠ some '\n')
    (h : '\n' ∉ unixLines keep ∨ ¬ Spotless (unixLines keep) ∨
      ∃ above head tail below, Around (unixLines keep) (unixLines content) above head tail below ∧
        tidyAbove above = above) :
    tidyChars keep (tidyChars keep content) = tidyChars keep content := by
  cases hkept : occurrence? (unixLines keep) (unixLines content) with
  | none => exact (tidyChars_again_of_not_occurrence hkept).2
  | some s =>
    have hne := ne_nil_of_occurrence? hkept
    obtain ⟨_, _, _, _, haround⟩ := exists_around (infix_of_occurrence? hkept)
    rcases h with hfeed | hblemish | ⟨above, head, tail, below, h, htidy⟩
    · exact haround.tidyChars_again hne hstart hstop (.inl hfeed)
    · exact haround.tidyChars_again hne hstart hstop (.inr (.inl hblemish))
    · exact h.tidyChars_again hne hstart hstop (.inr (.inr htidy))

end Again

theorem toList_tidy_some (content keep : String) :
    (tidy content (some keep)).toList = tidyChars keep.toList content.toList :=
  String.toList_ofList

theorem steady_iff_tidyChars {content keep : String} : Steady content keep ↔
    tidyChars keep.toList (tidyChars keep.toList content.toList) =
      tidyChars keep.toList content.toList := by
  rw [Steady, ← String.toList_inj, toList_tidy_some, toList_tidy_some]

/-- Tidying again with the same part kept changes nothing exactly if the lines of the text are
settled with those kept that the part touches now. Where the part does not begin or end with a line
feed, that is so if it is first where it was before, or if the text would not be changed with
nothing kept; and it always is for a part without a line end or with a blemish of its own, and below
lines that were tidy from the start. -/
theorem steady_exact (content keep : String) :
    (Steady content keep ↔
      Settled .top (markLines
        (occurrence? (unixLines keep.toList) (tidy content (some keep)).toList) 0
        (splitAt '\n' (tidy content (some keep)).toList).dropLast)) ∧
    ((unixLines keep.toList).head? ≠ some '\n' → (unixLines keep.toList).getLast? ≠ some '\n' →
      (Steady content keep ↔
        FoundAgain (unixLines keep.toList) (unixLines content.toList)
            (tidy content (some keep)).toList ∨
          tidy (tidy content (some keep)) none = tidy content (some keep)) ∧
      ('\n' ∉ unixLines keep.toList ∨ ¬ Spotless (unixLines keep.toList) ∨
        (∃ above head tail below,
          Around (unixLines keep.toList) (unixLines content.toList) above head tail below ∧
            tidyAbove above = above) →
        Steady content keep)) := by
  refine ⟨?_, fun hstart hstop => ⟨?_, fun h => ?_⟩⟩
  · obtain ⟨ls, hplain, hls⟩ := exists_plain_tidyChars keep.toList content.toList
    rw [steady_iff_tidyChars, toList_tidy_some, hls, tidyChars_eq_self_iff hplain,
      splitAt_terminated fun l hl => (hplain l hl).1, List.dropLast_concat]
  · have hnone : tidy (tidy content (some keep)) none = tidy content (some keep) ↔
        tidyChars [] (tidyChars keep.toList content.toList) =
          tidyChars keep.toList content.toList := by
      rw [← String.toList_inj, toList_tidy_none, ← tidyChars_nil, toList_tidy_some]
    rw [steady_iff_tidyChars, hnone, toList_tidy_some]
    exact tidyChars_again hstart hstop
  · rw [steady_iff_tidyChars]
    exact tidyChars_again_of hstart hstop h

theorem steady_exact_template :
    (unixLines keptTemplate.toList).head? ≠ some '\n' ∧
      (unixLines keptTemplate.toList).getLast? ≠ some '\n' ∧
      ¬ Spotless (unixLines keptTemplate.toList) ∧ Steady textAroundTemplate keptTemplate ∧
      FoundAgain (unixLines keptTemplate.toList) (unixLines textAroundTemplate.toList)
        (tidy textAroundTemplate (some keptTemplate)).toList := by
  have hstart : (unixLines keptTemplate.toList).head? ≠ some '\n' := by decide
  have hstop : (unixLines keptTemplate.toList).getLast? ≠ some '\n' := by decide
  have hblemish : ¬ Spotless (unixLines keptTemplate.toList) := fun h =>
    h [' ', '\n'] (.trailing rfl (by decide)) ⟨['\x60', 'x', ' '], "\n y\x60".toList, by decide⟩
  obtain ⟨-, hexact⟩ := steady_exact textAroundTemplate keptTemplate
  obtain ⟨hiff, hsteady⟩ := hexact hstart hstop
  have hsteady := hsteady (.inr (.inl hblemish))
  have huntidy : tidy (tidy textAroundTemplate (some keptTemplate)) none ≠
      tidy textAroundTemplate (some keptTemplate) := by
    decide +kernel
  exact ⟨hstart, hstop, hblemish, hsteady, (hiff.mp hsteady).resolve_right huntidy⟩

/-- Of two calls with the same block, the first is spelled with white space that goes. The second one
is kept, with the white space behind it, but only until the first one looks the same. -/
theorem space_goes_when_tidied_again :
    tidy "a(\x7b \n\x7d)\nb(\x7b\n\x7d)  " (some "\x7b\n\x7d") =
        "a(\x7b\n\x7d)\nb(\x7b\n\x7d)  \n" ∧
      tidy "a(\x7b\n\x7d)\nb(\x7b\n\x7d)  \n" (some "\x7b\n\x7d") =
        "a(\x7b\n\x7d)\nb(\x7b\n\x7d)\n" ∧
      ¬ Steady "a(\x7b \n\x7d)\nb(\x7b\n\x7d)  " "\x7b\n\x7d" := by
  have hfirst : tidy "a(\x7b \n\x7d)\nb(\x7b\n\x7d)  " (some "\x7b\n\x7d") =
      "a(\x7b\n\x7d)\nb(\x7b\n\x7d)  \n" := by
    decide +kernel
  have hsecond : tidy "a(\x7b\n\x7d)\nb(\x7b\n\x7d)  \n" (some "\x7b\n\x7d") =
      "a(\x7b\n\x7d)\nb(\x7b\n\x7d)\n" := by
    decide +kernel
  refine ⟨hfirst, hsecond, ?_⟩
  rw [Steady, hfirst, hsecond]
  decide +kernel

end Workyard.Text
