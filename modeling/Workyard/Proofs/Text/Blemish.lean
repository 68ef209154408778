import Mathlib.Data.List.Basic
import Workyard.Proofs.Text.Lines

/-!
# Blemishes

The white space that tidying takes away: some before a line end, and the second of two blank
lines. A text of which every blemish is kept stays as it is. What is kept is only the first
occurrence of a part; if the part occurs earlier than where it is meant, it repeats what stands
before it, and has no blemish of its own.
-/

namespace Workyard.Text

set_option autoImplicit false

inductive Blemish : List Char → Prop
  | trailing {c : Char} (hblank : isBlankChar c = true) (hfeed : c ≠ '\n') : Blemish [c, '\n']
  | blankLines : Blemish ['\n', '\n', '\n']

/-- Tidying finds nothing to take away inside the text. -/
def Spotless (cs : List Char) : Prop :=
  ∀ b, Blemish b → ¬ b <:+: cs

def BeginsVisibly (cs : List Char) : Prop :=
  ∃ c rest, cs = c :: rest ∧ isBlankChar c = false

def EndsVisibly (cs : List Char) : Prop :=
  ∃ rest c, cs = rest ++ [c] ∧ isBlankChar c = false

variable {b cs ds : List Char}

theorem beginsVisibly_cons {c : Char} : BeginsVisibly (c :: cs) ↔ isBlankChar c = false := by
  constructor
  · rintro ⟨_, _, heq, hc⟩
    rw [(List.cons.inj heq).1]
    exact hc
  · exact fun hc => ⟨c, cs, rfl, hc⟩

instance : (cs : List Char) → Decidable (BeginsVisibly cs)
  | [] => .isFalse fun ⟨_, _, heq, _⟩ => by simp at heq
  | _ :: _ => decidable_of_iff _ beginsVisibly_cons.symm

instance : Decidable (EndsVisibly cs) :=
  decidable_of_iff (BeginsVisibly cs.reverse) <| by
    constructor
    · rintro ⟨c, rest, heq, hc⟩
      exact ⟨rest.reverse, c, by rw [← List.reverse_reverse cs, heq, List.reverse_cons], hc⟩
    · rintro ⟨rest, c, rfl, hc⟩
      exact ⟨c, rest.reverse, by simp, hc⟩

theorem BeginsVisibly.ne_nil (h : BeginsVisibly cs) : cs ≠ [] := by
  obtain ⟨c, rest, rfl, _⟩ := h
  simp

theorem BeginsVisibly.head?_ne (h : BeginsVisibly cs) : cs.head? ≠ some '\n' := by
  obtain ⟨c, rest, rfl, hc⟩ := h
  rintro heq
  obtain rfl := Option.some.inj heq
  exact absurd hc (by decide)

theorem BeginsVisibly.of_append (h : BeginsVisibly (cs ++ ds)) (hne : cs ≠ []) :
    BeginsVisibly cs := by
  obtain ⟨c, rest, heq, hc⟩ := h
  obtain ⟨c', rest', rfl⟩ := List.exists_cons_of_ne_nil hne
  obtain ⟨rfl, _⟩ := List.cons.inj heq
  exact ⟨c', rest', rfl, hc⟩

theorem BeginsVisibly.append (h : BeginsVisibly cs) (ds : List Char) : BeginsVisibly (cs ++ ds) := by
  obtain ⟨c, rest, rfl, hc⟩ := h
  exact ⟨c, rest ++ ds, rfl, hc⟩

theorem EndsVisibly.append (h : EndsVisibly ds) (cs : List Char) : EndsVisibly (cs ++ ds) := by
  obtain ⟨rest, c, rfl, hc⟩ := h
  exact ⟨cs ++ rest, c, by rw [List.append_assoc], hc⟩

theorem EndsVisibly.of_append (h : EndsVisibly (cs ++ ds)) (hne : ds ≠ []) : EndsVisibly ds := by
  obtain ⟨rest, c, heq, hc⟩ := h
  have hlast := List.dropLast_concat_getLast hne
  rw [← hlast, ← List.append_assoc] at heq
  obtain ⟨_, rfl⟩ := List.append_singleton_inj.mp heq
  exact ⟨ds.dropLast, _, hlast.symm, hc⟩

namespace Blemish

theorem blank (h : Blemish b) {c : Char} (hc : c ∈ b) : isBlankChar c = true := by
  cases h with
  | trailing hblank hfeed =>
    rcases List.mem_cons.mp hc with rfl | hc
    · exact hblank
    · rw [List.mem_singleton.mp hc]
      decide
  | blankLines =>
    rw [List.eq_of_mem_replicate (n := 3) hc]
    decide

theorem ne_nil (h : Blemish b) : b ≠ [] := by
  cases h <;> simp

theorem exists_concat (h : Blemish b) : ∃ b', b = b' ++ ['\n'] := by
  cases h with
  | @trailing c => exact ⟨[c], rfl⟩
  | blankLines => exact ⟨['\n', '\n'], rfl⟩

theorem not_beginsVisibly (h : Blemish (cs ++ ds)) : ¬ BeginsVisibly ds := by
  rintro ⟨c, rest, rfl, hc⟩
  simp [h.blank (List.mem_append_right cs List.mem_cons_self)] at hc

theorem not_endsVisibly (h : Blemish (cs ++ ds)) : ¬ EndsVisibly cs := by
  rintro ⟨rest, c, rfl, hc⟩
  simp [h.blank (c := c) (by simp)] at hc

/-- What of a blemish stands behind its first character begins with a line end. -/
theorem head?_right (h : Blemish (cs ++ ds)) (hcs : cs ≠ []) (hds : ds ≠ []) :
    ds.head? = some '\n' := by
  obtain ⟨c, cs, rfl⟩ := List.exists_cons_of_ne_nil hcs
  obtain ⟨d, ds, rfl⟩ := List.exists_cons_of_ne_nil hds
  rw [List.cons_append] at h
  generalize htail : cs ++ d :: ds = tail at h
  have hfeeds : ∀ x ∈ tail, x = '\n' := by
    cases h with
    | trailing => simp
    | blankLines => simp
  rw [List.head?_cons, hfeeds d (by simp [← htail])]

theorem feed_mem (h : Blemish (cs ++ ds)) (hne : ds ≠ []) : '\n' ∈ ds := by
  obtain ⟨b', hb⟩ := h.exists_concat
  rw [← List.dropLast_concat_getLast hne, ← List.append_assoc] at hb
  rw [← (List.append_singleton_inj.mp hb).2]
  exact List.getLast_mem hne

end Blemish

/-! ### Closed texts -/

/-- A blemish stands at the start of the text. -/
def startsBlemish : List Char → Bool
  | '\n' :: '\n' :: '\n' :: _ => true
  | c :: '\n' :: _ => isBlankChar c && c != '\n'
  | _ => false

def hasBlemish : List Char → Bool
  | [] => false
  | c :: cs => startsBlemish (c :: cs) || hasBlemish cs

theorem startsBlemish_append (h : Blemish b) (cs : List Char) :
    startsBlemish (b ++ cs) = true := by
  cases h with
  | @trailing c hblank hfeed =>
    rw [List.cons_append, List.cons_append, startsBlemish]
    · simp [hblank, hfeed]
    · intro _ hc
      exact absurd hc hfeed
  | blankLines => rfl

theorem spotless_of_hasBlemish (h : hasBlemish cs = false) : Spotless cs := by
  rintro b hb ⟨before, after, rfl⟩
  rw [List.append_assoc] at h
  induction before with
  | nil =>
    have hstarts := startsBlemish_append hb after
    obtain ⟨c, rest, hc⟩ := List.exists_cons_of_ne_nil hb.ne_nil
    rw [hc] at h hstarts
    simp only [List.nil_append, List.cons_append, hasBlemish] at h hstarts
    simp [hstarts] at h
  | cons c before ih =>
    simp only [List.cons_append, hasBlemish, Bool.or_eq_false_iff] at h
    exact ih h.2

/-! ### Texts put together -/

/-- A blemish of two texts put together lies in one of them or across the place between. -/
theorem infix_append_cases (h : b <:+: cs ++ ds) : b <:+: cs ∨ b <:+: ds ∨
    ∃ left right, b = left ++ right ∧ left ≠ [] ∧ right ≠ [] ∧ left <:+ cs ∧ right <+: ds := by
  obtain ⟨before, after, heq⟩ := h
  rw [List.append_assoc] at heq
  rcases List.append_eq_append_iff.mp heq with ⟨left, rfl, hrest⟩ | ⟨rest, rfl, rfl⟩
  · rcases List.append_eq_append_iff.mp hrest with ⟨rest, rfl, _⟩ | ⟨right, rfl, rfl⟩
    · exact .inl ⟨before, rest, by simp⟩
    · by_cases hleft : left = []
      · subst hleft
        exact .inr (.inl ⟨[], after, by simp⟩)
      by_cases hright : right = []
      · subst hright
        exact .inl ⟨before, [], by simp⟩
      · exact .inr (.inr ⟨left, right, rfl, hleft, hright, List.suffix_append before left,
          List.prefix_append right after⟩)
  · exact .inr (.inl ⟨rest, after, by simp⟩)

namespace Spotless

theorem within (h : Spotless ds) (hc : cs <:+: ds) : Spotless cs :=
  fun b hb hbc => h b hb (hbc.trans hc)

theorem of_no_feed (h : '\n' ∉ cs) : Spotless cs := by
  intro b hb hwithin
  have hfeed : '\n' ∈ b := (show Blemish ([] ++ b) from hb).feed_mem hb.ne_nil
  exact h (hwithin.subset hfeed)

theorem append (hc : Spotless cs) (hd : Spotless ds)
    (hbetween : EndsVisibly cs ∨ BeginsVisibly ds ∨ '\n' ∉ ds) : Spotless (cs ++ ds) := by
  intro b hb hwithin
  rcases infix_append_cases hwithin with h | h | ⟨left, right, rfl, hleft, hright, hsuffix, hprefix⟩
  · exact hc b hb h
  · exact hd b hb h
  · obtain ⟨before, rfl⟩ := hsuffix
    obtain ⟨after, rfl⟩ := hprefix
    rcases hbetween with h | h | h
    · exact hb.not_endsVisibly (h.of_append hleft)
    · exact hb.not_beginsVisibly (h.of_append hright)
    · exact h (List.mem_append_left after (hb.feed_mem hright))

/-- A line end between two texts is needed for a blemish across the place between. -/
theorem append_of_head? (hc : Spotless cs) (hd : Spotless ds) (h : ds.head? ≠ some '\n') :
    Spotless (cs ++ ds) := by
  intro b hb hwithin
  rcases infix_append_cases hwithin with h' | h' | ⟨left, right, rfl, hleft, hright, _, hprefix⟩
  · exact hc b hb h'
  · exact hd b hb h'
  · obtain ⟨after, rfl⟩ := hprefix
    exact h (List.mem_head?_append_of_mem_head? (hb.head?_right hleft hright))

/-- A text that goes on as it began has no blemish if there is none in what it repeats. -/
theorem of_recurs {w t : List Char} (hw : Spotless w) (hne : w ≠ []) (ht : t.head? ≠ some '\n')
    (h : t <+: w ++ t) : Spotless t := by
  obtain ⟨rest, hrest⟩ := h
  suffices hnone : ∀ n b before after, before.length = n → Blemish b →
      t ≠ before ++ b ++ after from
    fun b hb ⟨before, after, heq⟩ => hnone _ b before after rfl hb heq.symm
  intro n
  -- A blemish past the first period is there one period before as well, and one that is not
  -- past it lies in the period or reaches over the start of the text.
  induction n using Nat.strongRecOn with
  | ind n ih =>
    rintro b before after rfl hb heq
    have hwhole : w ++ t = before ++ (b ++ (after ++ rest)) := by
      rw [← hrest, heq]
      simp
    rcases List.append_eq_append_iff.mp hwhole with ⟨before', rfl, ht'⟩ | ⟨w', rfl, hrest'⟩
    · refine ih before'.length ?_ b before' (after ++ rest) rfl hb (by rw [ht', List.append_assoc])
      have hpos := List.length_pos_iff.mpr hne
      rw [List.length_append]
      omega
    · by_cases hw' : w' = []
      · subst hw'
        refine ih 0 ?_ b [] (after ++ rest) rfl hb (by simpa using hrest'.symm)
        simpa using List.length_pos_iff.mpr hne
      · rcases List.append_eq_append_iff.mp hrest' with ⟨w'', rfl, _⟩ | ⟨b', rfl, ht'⟩
        · exact hw b hb ⟨before, w'', by simp⟩
        · by_cases hb' : b' = []
          · subst hb'
            exact hw w' (by simpa using hb) ⟨before, [], by simp⟩
          · rw [ht'] at ht
            exact ht (List.mem_head?_append_of_mem_head? (hb.head?_right hw' hb'))

end Spotless

/-- The lines of a firm text end visibly, so that it has no blemish. -/
theorem Firm.spotless (h : Firm cs) : Spotless cs := by
  rintro b hb ⟨before, after, rfl⟩
  cases hb with
  | @trailing c hblank hfeed =>
    have hsplit : splitAt '\n' (before ++ [c, '\n'] ++ after) =
        splitAt '\n' (before ++ [c]) ++ splitAt '\n' after := by
      rw [← splitAt_append_cons, List.append_assoc, List.append_assoc]
      rfl
    have hnot : '\n' ∉ [c] := fun h => hfeed (List.mem_singleton.mp h).symm
    have hline : splitAt '\n' (before ++ [c]) = _ := splitAt_append hnot
    have hmem : (splitAt '\n' before).getLast (splitAt_ne_nil '\n' before) ++ [c] ∈
        splitAt '\n' (before ++ [c, '\n'] ++ after) := by
      rw [hsplit, hline]
      simp
    obtain ⟨l, c', heq, hc'⟩ := h.ends _ hmem
    obtain ⟨_, rfl⟩ := List.append_singleton_inj.mp heq
    simp [hblank] at hc'
  | blankLines =>
    have hsplit : splitAt '\n' (before ++ ['\n', '\n', '\n'] ++ after) =
        splitAt '\n' before ++ ([] :: [] :: splitAt '\n' after) := by
      rw [List.append_assoc, List.cons_append, splitAt_append_cons]
      rfl
    obtain ⟨l, c, heq, _⟩ := h.ends [] (by rw [hsplit]; simp)
    simp at heq

/-! ### Tidying -/

/-- Every blemish of a text lies in what is kept of it. -/
def KeepsBlemishes (kept : Option Span) (cs : List Char) : Prop :=
  ∀ before b after, cs = before ++ b ++ after → Blemish b →
    ∃ s, kept = some s ∧ s.start ≤ before.length ∧ before.length + b.length ≤ s.stop

theorem Spotless.keepsBlemishes (h : Spotless cs) (kept : Option Span) : KeepsBlemishes kept cs :=
  fun before b after heq hb => absurd ⟨before, after, heq.symm⟩ (h b hb)

theorem eq_append_of_trimRight_ne (h : trimRight cs ≠ cs) :
    ∃ rest c, cs = rest ++ [c] ∧ isBlankChar c = true := by
  by_cases hne : cs = []
  · exact absurd (by rw [hne, trimRight_nil]) h
  · rw [← List.dropLast_concat_getLast hne, trimRight_concat] at h
    cases hc : isBlankChar (cs.getLast hne) with
    | true => exact ⟨cs.dropLast, _, (List.dropLast_concat_getLast hne).symm, hc⟩
    | false => simp [hc] at h

/-- How the part before a line ends that leaves a gap. -/
def Gap.After : Gap → List Char → Prop
  | .top, before => before = []
  | .none, before => ∃ rest, before = rest ++ ['\n']
  | .blank, before => ∃ rest, before = rest ++ ['\n', '\n']

section Tidying

variable {kept : Option Span} {content : List Char}

/-- A line that stands before another one is written as it is, or kept. -/
theorem shown_of_keepsBlemishes (h : KeepsBlemishes kept content) {before l after : List Char}
    (hfeed : '\n' ∉ l) (heq : content = before ++ l ++ '\n' :: after) :
    (kept.map (·.touches before.length (before.length + l.length))).getD false = true ∨
      trimRight l = l := by
  by_cases htrim : trimRight l = l
  · exact .inr htrim
  · obtain ⟨l', c, rfl, hc⟩ := eq_append_of_trimRight_ne htrim
    have hcfeed : c ≠ '\n' := by
      rintro rfl
      exact hfeed (by simp)
    obtain ⟨s, rfl, hstart, hstop⟩ := h (before ++ l') [c, '\n'] after (by simp [heq])
      (.trailing hc hcfeed)
    simp only [List.length_append, List.length_cons, List.length_nil] at hstart hstop
    left
    simp only [Option.map_some, Option.getD_some, Span.touches, List.length_append,
      List.length_cons, List.length_nil, Bool.and_eq_true, decide_eq_true_eq]
    omega

/-- A line of which nothing would be written is empty, and no blank line stands before it. -/
theorem eq_nil_of_isDropped (h : KeepsBlemishes kept content)
    (hstart : ∀ rest, content ≠ '\n' :: rest) {before l after : List Char} (hfeed : '\n' ∉ l)
    (heq : content = before ++ l ++ '\n' :: after) {gap : Gap} (hgap : gap.After before)
    (hdropped : (⟨l, (kept.map (·.touches before.length (before.length + l.length))).getD false⟩ :
      Line).isDropped = true) :
    l = [] ∧ gap = .none := by
  simp only [Line.isDropped, Line.shown, Bool.and_eq_true, Bool.not_eq_true'] at hdropped
  obtain ⟨hkept, hshown⟩ := hdropped
  have htrim := (shown_of_keepsBlemishes h hfeed heq).resolve_left (by simp [hkept])
  rw [hkept, if_neg Bool.false_ne_true, htrim, List.isEmpty_iff] at hshown
  subst hshown
  refine ⟨rfl, ?_⟩
  cases gap with
  | top =>
    obtain rfl := hgap
    exact absurd heq (hstart after)
  | none => rfl
  | blank =>
    obtain ⟨rest, rfl⟩ := hgap
    obtain ⟨s, rfl, hfrom, hto⟩ := h rest ['\n', '\n', '\n'] after (by simp [heq]) .blankLines
    simp only [List.length_cons, List.length_nil] at hto
    simp only [Option.map_some, Option.getD_some, Span.touches, List.length_append,
      List.length_cons, List.length_nil, Bool.and_eq_false_iff, decide_eq_false_iff_not] at hkept
    omega

theorem writeLines_of_keepsBlemishes (h : KeepsBlemishes kept content)
    (hstart : ∀ rest, content ≠ '\n' :: rest) (hend : ∀ rest, content ≠ rest ++ ['\n', '\n'])
    (hstop : ∀ s, kept = some s → s.stop ≤ content.length) {ls : List (List Char)}
    (hls : ∀ l ∈ ls, '\n' ∉ l) {before : List Char}
    (heq : content = before ++ ls.flatMap (· ++ ['\n'])) {gap : Gap} (hgap : gap.After before) :
    writeLines gap (markLines kept before.length (ls ++ [[]])) =
      gap.text ++ ls.flatMap (· ++ ['\n']) := by
  induction ls generalizing before gap with
  | nil =>
    have hkept : (kept.map (·.touches before.length before.length)).getD false = false := by
      cases kept with
      | none => rfl
      | some s =>
        have hle := hstop s rfl
        simp only [heq, List.flatMap_nil, List.append_nil] at hle
        simp only [Option.map_some, Option.getD_some, Span.touches, Bool.and_eq_false_iff,
          decide_eq_false_iff_not]
        omega
    have hblank : gap.text = [] := by
      cases gap with
      | blank =>
        obtain ⟨rest, rfl⟩ := hgap
        exact absurd (by simpa using heq) (hend rest)
      | _ => rfl
    simp [markLines, hkept, writeLines, Line.isDropped, Line.shown, hblank]
  | cons l ls ih =>
    have hfeed := hls l List.mem_cons_self
    have hrest : ∀ m ∈ ls, '\n' ∉ m := fun m hm => hls m (List.mem_cons_of_mem l hm)
    have heq' : content = before ++ l ++ '\n' :: ls.flatMap (· ++ ['\n']) := by simp [heq]
    have hnext : content = (before ++ l ++ ['\n']) ++ ls.flatMap (· ++ ['\n']) := by simp [heq]
    have hlength : before.length + l.length + 1 = (before ++ l ++ ['\n']).length := by
      simp only [List.length_append, List.length_cons, List.length_nil]
    rw [List.cons_append, markLines, writeLines, hlength]
    split
    · rename_i hdropped
      obtain ⟨rfl, rfl⟩ := eq_nil_of_isDropped h hstart hfeed heq' hgap hdropped
      obtain ⟨rest, rfl⟩ := hgap
      have hafter : Gap.none.widen.After (rest ++ ['\n'] ++ [] ++ ['\n']) := ⟨rest, by simp⟩
      rw [ih hrest hnext hafter]
      rfl
    · rename_i hdropped
      have hshown : (⟨l, (kept.map (·.touches before.length (before.length + l.length))).getD false⟩
          : Line).shown = l := by
        rcases shown_of_keepsBlemishes h hfeed heq' with hkept | htrim
        · simp [Line.shown, hkept]
        · simp [Line.shown, htrim]
      have hafter : Gap.none.After (before ++ l ++ ['\n']) := ⟨before ++ l, rfl⟩
      rw [ih hrest hnext hafter, hshown]
      simp [Gap.text]

theorem flatMap_splitAt (cs : List Char) :
    (splitAt '\n' cs).flatMap (· ++ ['\n']) = cs ++ ['\n'] := by
  have hjoin : ∀ ls : List (List Char), ls ≠ [] →
      ls.flatMap (· ++ ['\n']) = joinWith ['\n'] ls ++ ['\n'] := by
    intro ls hne
    induction ls with
    | nil => exact absurd rfl hne
    | cons l ls ih =>
      by_cases hls : ls = []
      · simp [hls, joinWith]
      · rw [List.flatMap_cons, ih hls, joinWith_cons_of_ne_nil hls]
        simp
  rw [hjoin _ (splitAt_ne_nil '\n' cs), joinWith_splitAt]

end Tidying

/-! ### Occurrences -/

theorem indexOf?_append (before needle after : List Char) :
    ∃ first rest, before ++ needle ++ after = first ++ needle ++ rest ∧
      first.length ≤ before.length ∧
        indexOf? needle (before ++ needle ++ after) = some first.length := by
  induction before with
  | nil =>
    refine ⟨[], after, rfl, Nat.le_refl 0, ?_⟩
    rw [List.nil_append]
    cases h : needle ++ after with
    | nil => simp [indexOf?, (List.append_eq_nil_iff.mp h).1]
    | cons c cs =>
      have hprefix : needle <+: c :: cs := ⟨after, h⟩
      simp [indexOf?, List.isPrefixOf_iff_prefix.mpr hprefix]
  | cons c before ih =>
    rw [List.cons_append, List.cons_append, indexOf?]
    split
    · rename_i hprefix
      obtain ⟨rest, hrest⟩ := List.isPrefixOf_iff_prefix.mp hprefix
      exact ⟨[], rest, hrest.symm, Nat.zero_le _, rfl⟩
    · obtain ⟨first, rest, heq, hle, hindex⟩ := ih
      refine ⟨c :: first, rest, by rw [heq]; rfl, Nat.succ_le_succ hle, ?_⟩
      rw [hindex]
      rfl

theorem length_of_indexOf? {needle cs : List Char} {n : Nat} (h : indexOf? needle cs = some n) :
    n + needle.length ≤ cs.length := by
  induction cs generalizing n with
  | nil =>
    simp only [indexOf?, Option.ite_none_right_eq_some, Option.some.injEq] at h
    obtain ⟨rfl, rfl⟩ := h
    exact Nat.le_refl 0
  | cons c cs ih =>
    rw [indexOf?] at h
    split at h
    · rename_i hprefix
      obtain rfl := Option.some.inj h
      rw [Nat.zero_add]
      exact (List.isPrefixOf_iff_prefix.mp hprefix).length_le
    · obtain ⟨m, hm, rfl⟩ := Option.map_eq_some_iff.mp h
      have := ih hm
      rw [List.length_cons]
      omega

theorem infix_of_indexOf? {needle cs : List Char} {n : Nat} (h : indexOf? needle cs = some n) :
    needle <:+: cs := by
  induction cs generalizing n with
  | nil =>
    simp only [indexOf?, Option.ite_none_right_eq_some] at h
    obtain ⟨rfl, -⟩ := h
    exact List.infix_rfl
  | cons c cs ih =>
    rw [indexOf?] at h
    split at h
    · rename_i hprefix
      exact (List.isPrefixOf_iff_prefix.mp hprefix).isInfix
    · obtain ⟨m, hm, -⟩ := Option.map_eq_some_iff.mp h
      exact (ih hm).trans (List.suffix_cons c cs).isInfix

theorem exists_of_occurrence? {part cs : List Char} {s : Span} (h : occurrence? part cs = some s) :
    part ≠ [] ∧ ∃ n, indexOf? part cs = some n ∧ s = ⟨n, n + part.length⟩ := by
  unfold occurrence? at h
  split at h
  · exact absurd h (by simp)
  · rename_i hne
    obtain ⟨n, hn, rfl⟩ := Option.map_eq_some_iff.mp h
    exact ⟨hne, n, hn, rfl⟩

theorem stop_le_of_occurrence? {part cs : List Char} {s : Span} (h : occurrence? part cs = some s) :
    s.stop ≤ cs.length := by
  obtain ⟨-, n, hn, rfl⟩ := exists_of_occurrence? h
  exact length_of_indexOf? hn

theorem ne_nil_of_occurrence? {part cs : List Char} {s : Span} (h : occurrence? part cs = some s) :
    part ≠ [] :=
  (exists_of_occurrence? h).1

theorem infix_of_occurrence? {part cs : List Char} {s : Span} (h : occurrence? part cs = some s) :
    part <:+: cs := by
  obtain ⟨-, n, hn, -⟩ := exists_of_occurrence? h
  exact infix_of_indexOf? hn

/-- A text gets tidy by its line ends alone if all its blemishes are kept. -/
theorem tidyChars_of_keepsBlemishes {keep content body : List Char}
    (h : KeepsBlemishes (occurrence? (unixLines keep) (unixLines content)) (unixLines content))
    (hcontent : unixLines content = body ++ ['\n']) (hbegins : BeginsVisibly body)
    (hends : EndsVisibly body) : tidyChars keep content = unixLines content := by
  have hstart : ∀ rest, unixLines content ≠ '\n' :: rest := by
    obtain ⟨c, rest, rfl, hc⟩ := hbegins
    rintro rest' heq
    obtain ⟨rfl, _⟩ := List.cons.inj (hcontent.symm.trans heq)
    exact absurd hc (by decide)
  have hend : ∀ rest, unixLines content ≠ rest ++ ['\n', '\n'] := by
    obtain ⟨rest, c, rfl, hc⟩ := hends
    intro rest' heq
    have hlast : rest ++ [c] ++ ['\n'] = rest' ++ ['\n'] ++ ['\n'] := by
      rw [← hcontent, heq]
      simp
    have hlast := (List.append_singleton_inj.mp hlast).1
    obtain ⟨_, rfl⟩ := List.append_singleton_inj.mp hlast
    exact absurd hc (by decide)
  have hstop : ∀ s, occurrence? (unixLines keep) (unixLines content) = some s →
      s.stop ≤ (unixLines content).length := fun s hs => stop_le_of_occurrence? hs
  have hsplit : splitAt '\n' (unixLines content) = splitAt '\n' body ++ [[]] := by
    rw [hcontent, splitAt_append_cons]
    rfl
  have hbody := flatMap_splitAt body
  have hlines : unixLines content = [] ++ (splitAt '\n' body).flatMap (· ++ ['\n']) := by
    rw [hbody, hcontent]
    rfl
  have htop : Gap.top.After [] := rfl
  have hwrite := writeLines_of_keepsBlemishes h hstart hend hstop
    (fun l hl => not_mem_of_mem_splitAt hl) hlines htop
  unfold tidyChars
  simp only [hsplit]
  rw [List.length_nil] at hwrite
  rw [hwrite, hbody, hcontent]
  rfl

section Forwarding

variable {pre t post : List Char}

/-- Between texts without blemishes, those of a part with visible ends lie inside the part. -/
theorem Blemish.within (hb : Blemish b) (hpre : Spotless pre) (hpost : Spotless post)
    (hbegins : BeginsVisibly t) (hends : EndsVisibly t) {before after : List Char}
    (heq : pre ++ t ++ post = before ++ b ++ after) :
    pre.length ≤ before.length ∧ before.length + b.length ≤ pre.length + t.length := by
  constructor
  · rw [List.append_assoc, List.append_assoc] at heq
    rcases List.append_eq_append_iff.mp heq with ⟨rest, rfl, _⟩ | ⟨rest, rfl, hrest⟩
    · simp
    · rcases List.append_eq_append_iff.mp hrest with ⟨inside, rfl, _⟩ | ⟨inside, rfl, hinside⟩
      · exact absurd ⟨before, inside, by simp⟩ (hpre b hb)
      · by_cases hne : inside = []
        · subst hne
          exact absurd ⟨before, [], by simp⟩ (hpre rest (by simpa using hb))
        · obtain ⟨c, t', rfl, hc⟩ := hbegins
          have hvisible : BeginsVisibly (inside ++ after) := ⟨c, _, hinside.symm, hc⟩
          exact absurd (hvisible.of_append hne) hb.not_beginsVisibly
  · rcases List.append_eq_append_iff.mp heq with ⟨rest, hrest, rfl⟩ | ⟨rest, hrest, _⟩
    · by_cases hne : rest = []
      · subst hne
        have := congrArg List.length hrest
        simp only [List.length_append, List.length_nil] at this
        omega
      · exfalso
        rcases List.append_eq_append_iff.mp hrest with ⟨inside, hinside, rfl⟩ | ⟨inside, _, rfl⟩
        · by_cases hinside' : inside = []
          · subst hinside'
            exact hpost rest (by simpa using hb) (List.prefix_append rest after).isInfix
          · have hvisible : EndsVisibly (before ++ inside) := hinside ▸ hends.append pre
            exact hb.not_endsVisibly (hvisible.of_append hinside')
        · exact hpost b hb ⟨inside, after, rfl⟩
    · have := congrArg List.length hrest
      simp only [List.length_append] at this
      omega

theorem keepsBlemishes_occurrence (hpre : Spotless pre) (hpost : Spotless post)
    (hbegins : BeginsVisibly t) (hends : EndsVisibly t) :
    KeepsBlemishes (occurrence? t (pre ++ t ++ post)) (pre ++ t ++ post) := by
  obtain ⟨first, rest, heq, hle, hindex⟩ := indexOf?_append pre t post
  by_cases hfirst : first.length = pre.length
  · intro before b after hb hblemish
    refine ⟨⟨first.length, first.length + t.length⟩, ?_, ?_⟩
    · rw [occurrence?, if_neg hbegins.ne_nil, hindex]
      rfl
    · have := hblemish.within hpre hpost hbegins hends hb
      dsimp only
      omega
  · -- The part stands here earlier, so that it begins as what stands before it goes on.
    have ht : Spotless t := by
      rw [List.append_assoc, List.append_assoc] at heq
      rcases List.append_eq_append_iff.mp heq with ⟨w, rfl, _⟩ | ⟨w, rfl, hw⟩
      · simp only [List.length_append] at hle hfirst
        omega
      · have hne : w ≠ [] := by
          rintro rfl
          simp at hfirst
        refine (hpre.within (List.suffix_append first w).isInfix).of_recurs hne
          hbegins.head?_ne ?_
        refine List.prefix_of_prefix_length_le (List.prefix_append t rest) ?_ ?_
        · rw [hw, ← List.append_assoc]
          exact List.prefix_append _ _
        · simp
    refine Spotless.keepsBlemishes ?_ _
    exact (hpre.append ht (.inr (.inl hbegins))).append hpost (.inl (hends.append pre))

end Forwarding

end Workyard.Text
