import Workyard.Proofs.Text.BlankLines
import Workyard.Proofs.Text.LineEnds

/-!
# What tidying makes of a text

Tidying goes over the lines once, with a gap that says what stands before the next line. Where no
line is kept, it makes of a text what its parts say: line ends become feeds, lines are trimmed, and
the runs of blank lines are squeezed.
-/

namespace Workyard.Text

set_option autoImplicit false

/-- The text of lines each of which a line feed ends. -/
def terminated (ls : List (List Char)) : List Char :=
  ls.flatMap (· ++ ['\n'])

variable {l : List Char} {ls ms : List (List Char)}

@[simp] theorem terminated_nil : terminated [] = [] := rfl

@[simp] theorem terminated_cons (l : List Char) (ls : List (List Char)) :
    terminated (l :: ls) = l ++ '\n' :: terminated ls := by
  simp [terminated]

@[simp] theorem terminated_append (ls ms : List (List Char)) :
    terminated (ls ++ ms) = terminated ls ++ terminated ms :=
  List.flatMap_append

theorem splitAt_terminated_append (h : ∀ l ∈ ls, '\n' ∉ l) (cs : List Char) :
    splitAt '\n' (terminated ls ++ cs) = ls ++ splitAt '\n' cs := by
  induction ls with
  | nil => rfl
  | cons l ls ih =>
    have hrest := ih fun m hm => h m (List.mem_cons_of_mem l hm)
    rw [terminated_cons, List.append_assoc, List.cons_append, splitAt_append_cons,
      splitAt_of_not_mem (h l List.mem_cons_self), hrest]
    rfl

theorem splitAt_terminated (h : ∀ l ∈ ls, '\n' ∉ l) :
    splitAt '\n' (terminated ls) = ls ++ [[]] := by
  rw [← List.append_nil (terminated ls), splitAt_terminated_append h]
  rfl

/-! ### Trimming -/

@[simp] theorem trimRight_trimRight (cs : List Char) : trimRight (trimRight cs) = trimRight cs :=
  List.rdropWhile_idempotent isBlankChar cs

theorem prefix_trimRight (cs : List Char) : trimRight cs <+: cs :=
  List.rdropWhile_prefix isBlankChar cs

theorem endsVisibly_of_trimmed (htrim : trimRight l = l) (hne : l ≠ []) : EndsVisibly l := by
  refine ⟨l.dropLast, l.getLast hne, (List.dropLast_concat_getLast hne).symm, ?_⟩
  simpa using List.rdropWhile_eq_self_iff.mp htrim hne

/-! ### Writing lines -/

/-- The lines that are written of those before a line that is written, with this gap at first. -/
def Gap.above : Gap → List (List Char) → List (List Char)
  | top, ls => squeeze (dropTop ls)
  | none, ls => squeeze ls
  | blank, ls => squeeze ([] :: ls)

namespace Gap

theorem terminated_above_nil (gap : Gap) : terminated (gap.above []) = gap.text := by
  cases gap <;> rfl

theorem above_blank (gap : Gap) (ls : List (List Char)) :
    gap.above ([] :: ls) = gap.widen.above ls := by
  cases gap with
  | top => rfl
  | none => rfl
  | blank => exact squeeze_blank_blank

theorem terminated_above_cons (gap : Gap) (h : l ≠ []) (ls : List (List Char)) :
    terminated (gap.above (l :: ls)) = gap.text ++ (l ++ '\n' :: terminated (none.above ls)) := by
  cases gap with
  | top => simp [above, text, dropTop_cons h, squeeze_cons h]
  | none => simp [above, text, squeeze_cons h]
  | blank => simp [above, text, squeeze_blank_cons h, squeeze_cons h]

theorem above_concat (gap : Gap) (h : l ≠ []) (ls : List (List Char)) :
    gap.above (ls ++ [l]) = gap.above ls ++ [l] := by
  cases gap with
  | top => exact (congrArg squeeze (dropTop_concat h)).trans (squeeze_append_cons h _ [])
  | none => exact squeeze_append_cons h ls []
  | blank => exact squeeze_append_cons h ([] :: ls) []

end Gap

theorem isDropped_unkept (l : List Char) :
    (⟨l, false⟩ : Line).isDropped = (trimRight l).isEmpty := rfl

/-- The lines before one that is written. -/
theorem writeLines_above (gap : Gap) (ls : List (List Char)) {y : Line} (hy : y.isDropped = false)
    (rest : List Line) :
    writeLines gap (ls.map (⟨·, false⟩) ++ y :: rest) =
      terminated (gap.above (ls.map trimRight)) ++ (y.shown ++ '\n' :: writeLines .none rest) := by
  induction ls generalizing gap with
  | nil =>
    rw [List.map_nil, List.nil_append, writeLines, if_neg (by simp [hy]), List.map_nil,
      gap.terminated_above_nil, List.append_assoc]
  | cons l ls ih =>
    rw [List.map_cons, List.cons_append, writeLines, isDropped_unkept, List.map_cons]
    by_cases hl : trimRight l = []
    · rw [if_pos (by simp [hl]), hl, gap.above_blank]
      exact ih gap.widen
    · rw [if_neg (by simp [hl]), gap.terminated_above_cons hl, ih]
      simp [Line.shown]

theorem writeLines_concat_dropped (gap : Gap) (ls : List Line) {y : Line}
    (hy : y.isDropped = true) : writeLines gap (ls ++ [y]) = writeLines gap ls := by
  induction ls generalizing gap with
  | nil => simp [writeLines, hy]
  | cons l ls ih => rw [List.cons_append, writeLines, writeLines, ih, ih]

/-- The lines of the rest of a text. -/
theorem writeLines_unkept {gap : Gap} (hgap : gap ≠ .blank) (ls : List (List Char)) :
    writeLines gap (ls.map (⟨·, false⟩)) =
      terminated (gap.above (dropEnd (ls.map trimRight))) := by
  induction ls using List.reverseRecOn with
  | nil =>
    cases gap with
    | blank => exact absurd rfl hgap
    | _ => rfl
  | append_singleton ls l ih =>
    rw [List.map_append, List.map_append, List.map_singleton, List.map_singleton]
    by_cases hl : trimRight l = []
    · rw [writeLines_concat_dropped _ _ (by rw [isDropped_unkept, hl]; rfl), ih, hl,
        dropEnd_concat_blank]
    · rw [writeLines_above _ _ (by simpa [isDropped_unkept] using hl), dropEnd_concat hl,
        gap.above_concat hl, terminated_append]
      simp [Line.shown, writeLines]

/-! ### The whole text -/

/-- What is to be made of a text with feeds as its line ends. -/
def tidied (flat : List Char) : List (List Char) :=
  squeeze (dropTop (dropEnd ((splitAt '\n' flat).map trimRight)))

section Tidied

variable {flat : List Char}

theorem exists_of_mem_tidied (h : l ∈ tidied flat) :
    ∃ m ∈ splitAt '\n' flat, l = trimRight m := by
  have hdrop : l ∈ dropEnd ((splitAt '\n' flat).map trimRight) :=
    (List.dropWhile_suffix _).subset (mem_of_mem_squeeze h)
  obtain ⟨m, hm, rfl⟩ := List.mem_map.mp ((List.rdropWhile_prefix _ _).subset hdrop)
  exact ⟨m, hm, rfl⟩

theorem trimRight_of_mem_tidied (h : l ∈ tidied flat) : trimRight l = l := by
  obtain ⟨m, -, rfl⟩ := exists_of_mem_tidied h
  exact trimRight_trimRight m

theorem subset_of_mem_tidied (h : l ∈ tidied flat) : l ⊆ flat := by
  obtain ⟨m, hm, rfl⟩ := exists_of_mem_tidied h
  intro c hc
  exact mem_of_mem_splitAt hm ((prefix_trimRight m).subset hc)

theorem not_feed_mem_of_mem_tidied (h : l ∈ tidied flat) : '\n' ∉ l := by
  obtain ⟨m, hm, rfl⟩ := exists_of_mem_tidied h
  exact fun hc => not_mem_of_mem_splitAt hm ((prefix_trimRight m).subset hc)

theorem splitAt_tidied (flat : List Char) :
    splitAt '\n' (terminated (tidied flat)) = tidied flat ++ [[]] :=
  splitAt_terminated fun _ hl => not_feed_mem_of_mem_tidied hl

theorem not_return_mem_tidied (h : '\r' ∉ flat) : '\r' ∉ terminated (tidied flat) := by
  intro hmem
  obtain ⟨l, hl, hc⟩ := List.mem_flatMap.mp hmem
  rcases List.mem_append.mp hc with hc | hc
  · exact h (subset_of_mem_tidied hl hc)
  · exact absurd (List.mem_singleton.mp hc) (by decide)

/-- Tidy lines are not changed. -/
theorem tidied_tidied (flat : List Char) : tidied (terminated (tidied flat)) = tidied flat := by
  have hsqueezed : Squeezed (tidied flat) := squeezed_squeeze _
  have hmap : (tidied flat).map trimRight = tidied flat :=
    List.map_congr_left (fun l hl => trimRight_of_mem_tidied hl) |>.trans (List.map_id _)
  have hblank : [([] : List Char)].map trimRight = [[]] := rfl
  rw [tidied, splitAt_tidied, List.map_append, hmap, hblank, dropEnd_concat_blank,
    hsqueezed.dropEnd, hsqueezed.dropTop, hsqueezed.squeeze]

/-- Every line of a tidy text ends with its line feed, and the last line is not blank. -/
theorem terminated_tidied_ends (flat : List Char) :
    terminated (tidied flat) = [] ∨
      ∃ body, EndsVisibly body ∧ terminated (tidied flat) = body ++ ['\n'] := by
  rcases List.eq_nil_or_concat' (tidied flat) with hnil | ⟨ms, l, hlast⟩
  · exact .inl (by rw [hnil]; rfl)
  · have hmem : l ∈ tidied flat := by
      rw [hlast]
      exact List.mem_append_right ms (List.mem_singleton_self l)
    have hsqueezed : Squeezed (tidied flat) := squeezed_squeeze _
    have hne : l ≠ [] := by
      rintro rfl
      exact hsqueezed.last (by rw [hlast, List.getLast?_concat])
    have hends := endsVisibly_of_trimmed (trimRight_of_mem_tidied hmem) hne
    exact .inr ⟨terminated ms ++ l, hends.append _, by simp [hlast]⟩

end Tidied

theorem tidyChars_nil (cs : List Char) : tidyChars [] cs = terminated (tidied (unixLines cs)) := by
  have hnone : occurrence? (unixLines []) (unixLines cs) = none := rfl
  unfold tidyChars
  simp only [hnone, markLines_none]
  exact writeLines_unkept (by decide) _

theorem toList_tidy_none (text : String) :
    (tidy text none).toList = terminated (tidied (unixLines text.toList)) := by
  rw [tidy, String.toList_ofList]
  exact tidyChars_nil _

/-- Tidying turns line ends into feeds, trims the lines, drops the blank lines at the start and at
the end and leaves one of every other run of them. Such a text has nothing left to tidy. -/
theorem tidy_exact (text : String) : ∃ flat lines,
    TurnsLineEnds true text.toList flat ∧
    lines = squeeze (dropTop (dropEnd ((splitAt '\n' flat).map trimRight))) ∧
    (tidy text none).toList = terminated lines ∧
    splitAt '\n' (tidy text none).toList = lines ++ [[]] ∧
    '\r' ∉ (tidy text none).toList ∧
    (∀ l ∈ lines, trimRight l = l) ∧
    Squeezed lines ∧
    ((tidy text none).toList = [] ∨
      ∃ body, EndsVisibly body ∧ (tidy text none).toList = body ++ ['\n']) ∧
    lines.filter (!·.isEmpty) = ((splitAt '\n' flat).map trimRight).filter (!·.isEmpty) ∧
    tidy (tidy text none) none = tidy text none := by
  have htext := toList_tidy_none text
  have hreturn : '\r' ∉ (tidy text none).toList := by
    rw [htext]
    exact not_return_mem_tidied (not_mem_unixLines _)
  refine ⟨unixLines text.toList, tidied (unixLines text.toList), turnsLineEnds_unixLines _, rfl,
    htext, ?_, hreturn, fun l hl => trimRight_of_mem_tidied hl, squeezed_squeeze _, ?_, ?_, ?_⟩
  · rw [htext, splitAt_tidied]
  · rw [htext]
    exact terminated_tidied_ends _
  · rw [tidied, filter_squeeze, filter_dropTop, filter_dropEnd]
  · rw [← String.toList_inj, toList_tidy_none, unixLines_of_no_return hreturn, htext,
      tidied_tidied]

end Workyard.Text
