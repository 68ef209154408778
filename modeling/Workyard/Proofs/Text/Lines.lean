import Workyard.Text.Tidy

/-!
# Firm lines

A text whose lines all end in a visible character is tidy already, but for the line feed at its
end. Such texts are made of such texts.
-/

namespace Workyard.Text

set_option autoImplicit false

/-- The lines of a text end in characters that are seen, so that none of them is blank. -/
structure Firm (cs : List Char) : Prop where
  no_return : '\r' ∉ cs
  ends : ∀ l ∈ splitAt '\n' cs, ∃ l' c, l = l' ++ [c] ∧ isBlankChar c = false

/-- A part of a line. -/
structure Inline (cs : List Char) : Prop where
  no_return : '\r' ∉ cs
  no_feed : '\n' ∉ cs

theorem Inline.append {cs ds : List Char} (hc : Inline cs) (hd : Inline ds) :
    Inline (cs ++ ds) where
  no_return h := (List.mem_append.mp h).elim hc.no_return hd.no_return
  no_feed h := (List.mem_append.mp h).elim hc.no_feed hd.no_feed

theorem Inline.firm {cs : List Char} {c : Char} (h : Inline (cs ++ [c]))
    (hc : isBlankChar c = false) : Firm (cs ++ [c]) where
  no_return := h.no_return
  ends l hl := by
    rw [splitAt_of_not_mem h.no_feed, List.mem_singleton] at hl
    exact ⟨cs, c, hl, hc⟩

namespace Firm

variable {cs ds : List Char}

theorem append_feed (hc : Firm cs) (hd : Firm ds) : Firm (cs ++ '\n' :: ds) where
  no_return h := by
    rcases List.mem_append.mp h with h | h
    · exact hc.no_return h
    · rcases List.mem_cons.mp h with h | h
      · exact absurd h (by decide)
      · exact hd.no_return h
  ends l hl := by
    rw [splitAt_append_cons, List.mem_append] at hl
    exact hl.elim (hc.ends l) (hd.ends l)

/-- A visible character after the last line. -/
theorem append_char {c : Char} (hcs : Firm cs) (hc : Inline [c]) (hblank : isBlankChar c = false) :
    Firm (cs ++ [c]) where
  no_return h := (List.mem_append.mp h).elim hcs.no_return hc.no_return
  ends l hl := by
    rw [splitAt_append hc.no_feed, List.mem_append, List.mem_singleton] at hl
    rcases hl with hl | rfl
    · exact hcs.ends l (List.dropLast_subset _ hl)
    · exact ⟨_, c, rfl, hblank⟩

end Firm

/-- A part of a line before the first line. -/
theorem Inline.append_firm {cs ds : List Char} (hc : Inline cs) (hd : Firm ds) : Firm (cs ++ ds) where
  no_return h := (List.mem_append.mp h).elim hc.no_return hd.no_return
  ends := by
    have hsplit : ∀ cs : List Char, '\n' ∉ cs → ∃ p ps, splitAt '\n' ds = p :: ps ∧
        splitAt '\n' (cs ++ ds) = (cs ++ p) :: ps := by
      intro cs hfeed
      obtain ⟨p, ps, hps⟩ := List.exists_cons_of_ne_nil (splitAt_ne_nil '\n' ds)
      refine ⟨p, ps, hps, ?_⟩
      induction cs with
      | nil => exact hps
      | cons c cs ih =>
        rw [List.mem_cons, not_or] at hfeed
        have hc : c ≠ '\n' := fun h => hfeed.1 h.symm
        rw [List.cons_append, splitAt, if_neg hc, ih hfeed.2]
        rfl
    obtain ⟨p, ps, hps, happend⟩ := hsplit cs hc.no_feed
    have hends := hd.ends
    rw [hps] at hends
    rw [happend]
    intro l hl
    rcases List.mem_cons.mp hl with rfl | hl
    · obtain ⟨p', c, hp, hblank⟩ := hends p List.mem_cons_self
      exact ⟨cs ++ p', c, by rw [hp, List.append_assoc], hblank⟩
    · exact hends l (List.mem_cons_of_mem p hl)

/-! ### Tidying -/

theorem unixLines_of_no_return {cs : List Char} (h : '\r' ∉ cs) : unixLines cs = cs := by
  induction cs with
  | nil => rfl
  | cons c cs ih =>
    rw [List.mem_cons, not_or] at h
    have hc : c ≠ '\r' := fun heq => h.1 heq.symm
    have hjoin : joinLineEnds (c :: cs) = c :: joinLineEnds cs := by
      rw [joinLineEnds]
      exact fun _ heq _ => hc heq
    unfold unixLines at ih ⊢
    rw [hjoin, List.map_cons, ih h.2, returnToFeed, if_neg hc]

theorem trimRight_of_firm {l' : List Char} {c : Char} (h : isBlankChar c = false) :
    trimRight (l' ++ [c]) = l' ++ [c] := by
  rw [trimRight_concat, if_neg (by simp [h])]

theorem markLines_none (start : Nat) (ls : List (List Char)) :
    markLines none start ls = ls.map fun l => ⟨l, false⟩ := by
  induction ls generalizing start with
  | nil => rfl
  | cons l ls ih => simp [markLines, ih]

theorem writeLines_firm (gap : Gap) (hgap : gap.text = []) {ls : List (List Char)} (hne : ls ≠ [])
    (h : ∀ l ∈ ls, ∃ l' c, l = l' ++ [c] ∧ isBlankChar c = false) :
    writeLines gap (ls.map fun l => ⟨l, false⟩) = joinWith ['\n'] ls ++ ['\n'] := by
  induction ls generalizing gap with
  | nil => exact absurd rfl hne
  | cons l ls ih =>
    obtain ⟨l', c, rfl, hc⟩ := h l List.mem_cons_self
    have hshown : (⟨l' ++ [c], false⟩ : Line).shown = l' ++ [c] := by
      simp [Line.shown, trimRight_of_firm hc]
    have hdropped : (⟨l' ++ [c], false⟩ : Line).isDropped = false := by
      simp [Line.isDropped, hshown]
    rw [List.map_cons, writeLines, if_neg (by simp [hdropped]), hgap, hshown, List.nil_append]
    cases ls with
    | nil => simp [writeLines, joinWith]
    | cons m ls =>
      have hrest := ih .none rfl (List.cons_ne_nil m ls)
        fun x hx => h x (List.mem_cons_of_mem _ hx)
      rw [hrest, joinWith_cons_of_ne_nil (List.cons_ne_nil m ls)]
      simp

/-- A firm text gets one line feed at its end, and nothing else is changed. -/
theorem tidy_of_firm {text : String} (h : Firm text.toList) : tidy text none = text ++ "\n" := by
  have hlines := writeLines_firm .top rfl (splitAt_ne_nil '\n' text.toList) h.ends
  have htidy : tidyChars [] text.toList = text.toList ++ ['\n'] := by
    unfold tidyChars
    simp only [unixLines_of_no_return h.no_return]
    have hnone : occurrence? (unixLines []) text.toList = none := rfl
    rw [hnone, markLines_none, hlines, joinWith_splitAt]
  unfold tidy
  rw [Option.map_none, Option.getD_none, htidy, String.ofList_append, String.ofList_toList]

end Workyard.Text
