import Workyard.Proofs.Text.Kept

/-!
# Settled lines

A text is not changed by tidying exactly if its lines are settled: those that are not kept are
trimmed, and a blank one of them stands between a line that is written and another one. Keeping more
of its lines settles a text no less.
-/

namespace Workyard.Text

set_option autoImplicit false

/-- Lines that are written as they stand, after this gap. A line of which nothing is written leaves
a gap, and the next line fills it. -/
def Settled : Gap → List Line → Prop
  | gap, [] => gap ≠ .blank
  | gap, l :: ls =>
    l.shown = l.text ∧ (l.isDropped = true → gap = .none) ∧
      Settled (if l.isDropped then .blank else .none) ls

variable {gap : Gap} {ls : List (List Char)} {marks : List Line}

/-! ### What is written of lines -/

theorem length_shown_le (l : Line) : l.shown.length ≤ l.text.length := by
  unfold Line.shown
  split
  · exact Nat.le_refl _
  · exact (prefix_trimRight l.text).length_le

theorem shown_eq_text_of_length (l : Line) (h : l.text.length ≤ l.shown.length) :
    l.shown = l.text := by
  unfold Line.shown at h ⊢
  split
  · rfl
  · rename_i hkept
    rw [if_neg hkept] at h
    exact (prefix_trimRight l.text).eq_of_length_le h

theorem length_widen_text_le (gap : Gap) : gap.widen.text.length ≤ 1 := by
  cases gap <;> decide

/-- Nothing is written but the gap and the lines. -/
theorem length_writeLines_le (gap : Gap) (marks : List Line) :
    (writeLines gap marks).length ≤
      gap.text.length + (terminated (marks.map (·.text))).length := by
  induction marks generalizing gap with
  | nil => simp [writeLines]
  | cons l marks ih =>
    have hshown := length_shown_le l
    have hwiden := length_widen_text_le gap
    have hdropped := ih gap.widen
    have hwritten := ih .none
    have hnone : Gap.none.text.length = 0 := rfl
    rw [writeLines]
    split
    · simp only [List.map_cons, terminated_cons, List.length_append, List.length_cons]
      omega
    · simp only [List.map_cons, terminated_cons, List.length_append, List.length_cons]
      omega

theorem text_eq_nil_of_isDropped {l : Line} (h : l.isDropped = true) (hshown : l.shown = l.text) :
    l.text = [] := by
  rw [← hshown]
  simp only [Line.isDropped, Bool.and_eq_true, List.isEmpty_iff] at h
  exact h.2

/-- Lines are written as they stand exactly if they are settled, for a line of which less is written
is made up for by no other one. -/
theorem writeLines_eq_iff : writeLines gap marks = gap.text ++ terminated (marks.map (·.text)) ↔
    Settled gap marks := by
  induction marks generalizing gap with
  | nil => cases gap <;> simp [writeLines, Settled, Gap.text]
  | cons l marks ih =>
    rw [writeLines, Settled, List.map_cons, terminated_cons]
    by_cases hdropped : l.isDropped = true
    · rw [if_pos hdropped, if_pos hdropped]
      constructor
      · intro heq
        have hle := length_writeLines_le gap.widen marks
        have hlength := congrArg List.length heq
        simp only [List.length_append, List.length_cons] at hlength
        have hwiden := length_widen_text_le gap
        have htext : l.text = [] := List.length_eq_zero_iff.mp (by omega)
        have hshown : l.shown = l.text := shown_eq_text_of_length l (by simp [htext])
        cases gap with
        | none =>
          rw [htext] at heq
          exact ⟨hshown, fun _ => rfl, ih.mp heq⟩
        | top =>
          simp only [Gap.widen, Gap.text, List.length_nil] at hle hlength
          omega
        | blank =>
          simp only [Gap.widen, Gap.text, List.length_cons, List.length_nil] at hle hlength
          omega
      · rintro ⟨hshown, hgap, hsettled⟩
        obtain rfl := hgap hdropped
        rw [text_eq_nil_of_isDropped hdropped hshown]
        exact ih.mpr hsettled
    · rw [if_neg hdropped, if_neg hdropped]
      constructor
      · intro heq
        have hle := length_writeLines_le .none marks
        have hshown := length_shown_le l
        have hnone : Gap.none.text.length = 0 := rfl
        rw [List.append_assoc] at heq
        have hrest := List.append_cancel_left heq
        have hlength := congrArg List.length hrest
        simp only [List.length_append, List.length_cons] at hlength
        have hsame := shown_eq_text_of_length l (by omega)
        rw [hsame] at hrest
        exact ⟨hsame, fun h => absurd h hdropped, ih.mp (List.cons.inj (List.append_cancel_left hrest)).2⟩
      · rintro ⟨hshown, -, hsettled⟩
        have hrest : writeLines .none marks = terminated (marks.map (·.text)) := ih.mpr hsettled
        rw [hshown, hrest, List.append_assoc]

theorem Settled.shown_eq (h : Settled gap marks) {l : Line} (hl : l ∈ marks) : l.shown = l.text := by
  induction marks generalizing gap with
  | nil => exact absurd hl List.not_mem_nil
  | cons m marks ih =>
    rcases List.mem_cons.mp hl with rfl | hl
    · exact h.1
    · exact ih h.2.2 hl

/-! ### Keeping more lines -/

theorem Settled.of_blank (h : Settled .blank marks) : Settled .none marks := by
  cases marks with
  | nil => exact absurd rfl h
  | cons l marks =>
    obtain ⟨hshown, hgap, hrest⟩ := h
    have hdropped : ¬ l.isDropped = true := fun hdropped => absurd (hgap hdropped) (by decide)
    exact ⟨hshown, fun h => absurd h hdropped, hrest⟩

/-- Lines that are settled when none is kept are settled whichever are kept. -/
theorem settled_of_unkept (h : Settled gap (marks.map fun l => ⟨l.text, false⟩)) :
    Settled gap marks := by
  induction marks generalizing gap with
  | nil => exact h
  | cons l marks ih =>
    obtain ⟨hshown, hgap, hrest⟩ := h
    obtain ⟨text, kept⟩ := l
    cases kept with
    | false => exact ⟨hshown, hgap, ih hrest⟩
    | true =>
      have hdropped : (⟨text, true⟩ : Line).isDropped = false := rfl
      refine ⟨rfl, fun h => absurd h (by simp [hdropped]), ?_⟩
      rw [hdropped, if_neg Bool.false_ne_true]
      split at hrest
      · exact ih hrest.of_blank
      · exact ih hrest

/-! ### Texts that are not changed -/

theorem map_text_markLines (kept : Option Span) (start : Nat) (ls : List (List Char)) :
    (markLines kept start ls).map (·.text) = ls := by
  induction ls generalizing start with
  | nil => rfl
  | cons l ls ih => rw [markLines, List.map_cons, ih]

/-- Nothing of a text is kept behind its last line end. -/
theorem markLines_concat_nil {part cs : List Char} (hcs : cs = terminated ls) :
    markLines (occurrence? part cs) 0 (ls ++ [[]]) =
      markLines (occurrence? part cs) 0 ls ++ [⟨[], false⟩] := by
  rw [markLines_append, Nat.zero_add, ← hcs, markLines, markLines]
  congr
  cases hkept : occurrence? part cs with
  | none => rfl
  | some s =>
    have hstop := stop_le_of_occurrence? hkept
    simp only [Option.map_some, Option.getD_some, Span.touches, List.length_nil, Bool.and_eq_false_iff,
      decide_eq_false_iff_not]
    omega

/-- Lines without line ends of their own. -/
def Plain (ls : List (List Char)) : Prop :=
  ∀ l ∈ ls, '\n' ∉ l ∧ '\r' ∉ l

theorem terminated_inj {ls ms : List (List Char)} (hls : ∀ l ∈ ls, '\n' ∉ l)
    (hms : ∀ l ∈ ms, '\n' ∉ l) (h : terminated ls = terminated ms) : ls = ms := by
  have hsplit := congrArg (splitAt '\n') h
  rw [splitAt_terminated hls, splitAt_terminated hms] at hsplit
  exact List.append_cancel_right hsplit

theorem Plain.no_return (h : Plain ls) : '\r' ∉ terminated ls := by
  intro hmem
  obtain ⟨l, hl, hc⟩ := List.mem_flatMap.mp hmem
  rcases List.mem_append.mp hc with hc | hc
  · exact (h l hl).2 hc
  · exact absurd (List.mem_singleton.mp hc) (by decide)

/-- The texts that tidying does not change. -/
theorem tidyChars_eq_self_iff (h : Plain ls) (keep : List Char) :
    tidyChars keep (terminated ls) = terminated ls ↔
      Settled .top (markLines (occurrence? (unixLines keep) (terminated ls)) 0 ls) := by
  have hmarks := map_text_markLines (occurrence? (unixLines keep) (terminated ls)) 0 ls
  have hdropped : (⟨[], false⟩ : Line).isDropped = true := rfl
  unfold tidyChars
  simp only [unixLines_of_no_return h.no_return]
  rw [splitAt_terminated fun l hl => (h l hl).1, markLines_concat_nil rfl,
    writeLines_concat_dropped _ _ hdropped, ← writeLines_eq_iff, hmarks]
  rfl

/-- A line that is not kept is trimmed in a text that tidying does not change. -/
theorem trimRight_of_unkept {keep l : List Char} {upper lower : List (List Char)}
    (h : Plain (upper ++ l :: lower))
    (hsame : tidyChars keep (terminated (upper ++ l :: lower)) = terminated (upper ++ l :: lower))
    {s : Span} (hkept : occurrence? (unixLines keep) (terminated (upper ++ l :: lower)) = some s)
    (hstop : s.stop ≤ (terminated upper).length) : trimRight l = l := by
  rw [tidyChars_eq_self_iff h, hkept, markLines_append, markLines] at hsame
  have hshown := hsame.shown_eq (List.mem_append_right _ List.mem_cons_self)
  have huntouched : s.touches (0 + (terminated upper).length)
      (0 + (terminated upper).length + l.length) = false := by
    simp only [Span.touches, Bool.and_eq_false_iff, decide_eq_false_iff_not]
    omega
  rw [Option.map_some, Option.getD_some, huntouched] at hshown
  exact hshown

/-- A text without blemishes that does not begin or end with a blank line is tidy. -/
theorem tidyChars_nil_of_spotless (h : Plain ls) (hspotless : Spotless (terminated ls))
    (htop : ls.head? ≠ some []) (hlast : ls.getLast? ≠ some []) :
    tidyChars [] (terminated ls) = terminated ls := by
  have hbegin : ∀ rest, terminated ls ≠ '\n' :: rest := by
    intro rest heq
    cases ls with
    | nil => exact absurd heq (by simp)
    | cons l ls =>
      cases l with
      | nil => exact htop rfl
      | cons c l =>
        rw [terminated_cons, List.cons_append] at heq
        obtain ⟨rfl, -⟩ := List.cons.inj heq
        exact (h _ List.mem_cons_self).1 List.mem_cons_self
  have hend : ∀ rest, terminated ls ≠ rest ++ ['\n', '\n'] := by
    intro rest heq
    rcases List.eq_nil_or_concat' ls with rfl | ⟨ms, m, rfl⟩
    · exact absurd heq (by simp)
    · rcases List.eq_nil_or_concat' m with rfl | ⟨m, c, rfl⟩
      · exact hlast List.getLast?_concat
      · have hfeeds : (terminated ms ++ m ++ [c]) ++ ['\n'] = (rest ++ ['\n']) ++ ['\n'] := by
          simpa using heq
        have hfeed := (List.append_singleton_inj.mp hfeeds).1
        obtain ⟨-, rfl⟩ := List.append_singleton_inj.mp hfeed
        exact (h (m ++ ['\n']) (by simp)).1 (by simp)
  have hnone : occurrence? (unixLines []) (terminated ls) = none := rfl
  have hwrite := writeLines_of_keepsBlemishes (hspotless.keepsBlemishes none) hbegin hend
    (fun _ hs => absurd hs (by simp)) (fun l hl => (h l hl).1) (List.nil_append _).symm
    (show Gap.top.After [] from rfl)
  unfold tidyChars
  simp only [unixLines_of_no_return h.no_return]
  rw [hnone, splitAt_terminated fun l hl => (h l hl).1]
  exact hwrite

/-- A text that is tidy is not changed when some of its lines are kept. -/
theorem tidyChars_of_tidy (h : Plain ls) (htidy : tidyChars [] (terminated ls) = terminated ls)
    (keep : List Char) : tidyChars keep (terminated ls) = terminated ls := by
  have hnone : occurrence? (unixLines []) (terminated ls) = none := rfl
  rw [tidyChars_eq_self_iff h, hnone, markLines_none] at htidy
  rw [tidyChars_eq_self_iff h]
  refine settled_of_unkept ?_
  have hmap : (markLines (occurrence? (unixLines keep) (terminated ls)) 0 ls).map
      (fun l => (⟨l.text, false⟩ : Line)) = ls.map fun l => ⟨l, false⟩ := by
    conv_rhs => rw [← map_text_markLines (occurrence? (unixLines keep) (terminated ls)) 0 ls]
    rw [List.map_map]
    rfl
  rwa [hmap]

/-- What tidying makes of a text has lines that end in line feeds alone. -/
theorem exists_plain_writeLines (h : Plain (marks.map (·.text))) (gap : Gap) :
    ∃ ls, Plain ls ∧ writeLines gap marks = terminated ls := by
  induction marks generalizing gap with
  | nil => exact ⟨[], by simp [Plain], rfl⟩
  | cons l marks ih =>
    have hrest : Plain (marks.map (·.text)) := fun m hm => h m (List.mem_cons_of_mem l.text hm)
    rw [writeLines]
    split
    · exact ih hrest gap.widen
    · obtain ⟨ls, hls, hwrite⟩ := ih hrest .none
      have hl := h l.text List.mem_cons_self
      have hsubset : l.shown ⊆ l.text := by
        unfold Line.shown
        split
        · exact List.Subset.refl _
        · exact (prefix_trimRight l.text).subset
      have hshown : '\n' ∉ l.shown ∧ '\r' ∉ l.shown :=
        ⟨fun hc => hl.1 (hsubset hc), fun hc => hl.2 (hsubset hc)⟩
      have hplain : Plain (l.shown :: ls) := List.forall_mem_cons.mpr ⟨hshown, hls⟩
      cases gap with
      | blank => exact ⟨[] :: l.shown :: ls, List.forall_mem_cons.mpr ⟨by simp, hplain⟩,
          by simp [hwrite, Gap.text]⟩
      | _ => exact ⟨l.shown :: ls, hplain, by simp [hwrite, Gap.text]⟩

theorem exists_plain_tidyChars (keep content : List Char) :
    ∃ ls, Plain ls ∧ tidyChars keep content = terminated ls := by
  refine exists_plain_writeLines ?_ .top
  rw [map_text_markLines]
  intro l hl
  exact ⟨not_mem_of_mem_splitAt hl, fun hc => not_mem_unixLines content (mem_of_mem_splitAt hl hc)⟩

end Workyard.Text
