import Workyard.Proofs.Path.Components

/-!
# Relative paths

The path of something relative to a path that it begins with says what is left of it, however the
two are spelled.
-/

namespace Workyard.FilePath

set_option autoImplicit false

open Text

variable {base p : FilePath} {cs : List Component} {ss : List Segment}

theorem spoken_cons_of_counts {s : Segment} (h : s.counts = true) (ss : List Segment) :
    spoken (s :: ss) = componentOf s.text :: spoken ss := by
  simp [spoken, h]

theorem spoken_cons_of_not_counts {s : Segment} (h : s.counts = false) (ss : List Segment) :
    spoken (s :: ss) = spoken ss := by
  simp [spoken, h]

/-- Segments are dropped as many as count. -/
theorem spoken_dropCounting (n : Nat) (ss : List Segment) :
    spoken (dropCounting n ss) = (spoken ss).drop n := by
  induction ss generalizing n with
  | nil => cases n <;> simp [dropCounting, spoken]
  | cons s ss ih =>
    cases n with
    | zero => simp [dropCounting]
    | succ n =>
      cases h : s.counts with
      | true => rw [dropCounting, if_pos h, ih, spoken_cons_of_counts h, List.drop_succ_cons]
      | false => rw [dropCounting, if_neg (by simp [h]), ih, spoken_cons_of_not_counts h]

theorem suffix_dropCounting (n : Nat) (ss : List Segment) : dropCounting n ss <:+ ss := by
  induction ss generalizing n with
  | nil => cases n <;> exact List.suffix_refl _
  | cons s ss ih =>
    cases n with
    | zero => exact List.suffix_refl _
    | succ n =>
      rw [dropCounting]
      split
      · exact (ih n).trans (List.suffix_cons s ss)
      · exact (ih (n + 1)).trans (List.suffix_cons s ss)

theorem spoken_dropWhile (ss : List Segment) :
    spoken (ss.dropWhile fun s => !s.counts) = spoken ss := by
  induction ss with
  | nil => rfl
  | cons s ss ih =>
    cases h : s.counts with
    | true => simp [h]
    | false => simp [h, ih, spoken_cons_of_not_counts]

theorem spoken_trimEnd (ss : List Segment) : spoken (trimEnd ss) = spoken ss := by
  obtain ⟨rest, hss, hrest, _⟩ := trimEnd_append ss
  have hspoken := spoken_append (trimEnd ss) rest
  rw [← hss, spoken_of_quiet hrest, List.append_nil] at hspoken
  exact hspoken.symm

/-- Segments from the middle of a path are segments of a path of their own if the first counts. -/
theorem segmentsOf_middle {before after : List Segment} (h : p.segments = before ++ ss ++ after)
    (hfirst : ∀ s ∈ ss.head?, s.counts = true) : segmentsOf (ss.map (·.text)) = ss := by
  cases ss with
  | nil => rfl
  | cons s ss =>
    cases before with
    | nil => exact segmentsOf_before h
    | cons b before =>
      obtain ⟨first, rest, hrest⟩ := List.exists_cons_of_ne_nil (splitAt_ne_nil '/' p.text.toList)
      rw [segments, hrest, segmentsOf, List.cons_append, List.cons_append, List.cons.injEq] at h
      have hwithin : ∀ s' ∈ s :: ss, s' = ⟨s'.text, countsWithin s'.text⟩ := by
        intro s' hs'
        have hmem : s' ∈ rest.map fun t => (⟨t, countsWithin t⟩ : Segment) := by
          rw [h.2]
          exact List.mem_append_left _ (List.mem_append_right _ hs')
        obtain ⟨t, _, rfl⟩ := List.mem_map.mp hmem
        rfl
      obtain ⟨hs, hss⟩ := List.forall_mem_cons.mp hwithin
      have hcounts : s.counts = true := hfirst s rfl
      have htext : s.text ≠ [] := by
        rw [hs] at hcounts
        exact (of_decide_eq_true hcounts).1
      have hmap : ss.map (fun s' => (⟨s'.text, countsWithin s'.text⟩ : Segment)) = ss :=
        (List.map_congr_left fun s' hs' => (hss s' hs').symm).trans (List.map_id ss)
      rw [List.map_cons, segmentsOf, List.map_map, List.cons.injEq]
      exact ⟨by rw [decide_eq_true htext, ← hcounts], hmap⟩

/-- A path of segments from the middle of another one says what they say. -/
theorem components_ofSegments {before after : List Segment}
    (h : p.segments = before ++ ss ++ after) (hfirst : ∀ s ∈ ss.head?, s.counts = true)
    (hlast : ∀ s ∈ ss.getLast?, s.counts = true) :
    (ofSegments false ss).components = spoken ss := by
  by_cases hne : ss = []
  · subst hne
    rfl
  have hmem : ∀ s ∈ ss, s ∈ p.segments := by
    intro s hs
    rw [h]
    exact List.mem_append_left _ (List.mem_append_right _ hs)
  have hsep : ∀ s ∈ ss, '/' ∉ s.text := by
    intro s hs
    apply @not_mem_of_mem_splitAt '/' p.text.toList
    rw [← segments_text]
    exact List.mem_map_of_mem (hmem s hs)
  have htext : ∀ s ∈ ss, s.counts = true → s.text ≠ [] := fun s hs =>
    (counts_segments (hmem s hs)).2
  obtain ⟨_, hsplit⟩ := @segments_ofSegments false ss hne hsep fun s hs =>
    htext s (List.mem_of_getLast? hs) (hlast s hs)
  have hrelative : (ofSegments false ss).isAbsolute = false := by
    rw [Bool.eq_false_iff]
    intro habsolute
    obtain ⟨_, _, hempty⟩ := isAbsolute_iff.mp habsolute
    obtain ⟨s, ss, rfl⟩ := List.exists_cons_of_ne_nil hne
    rw [hsplit, List.map_cons, List.cons.injEq] at hempty
    exact htext s List.mem_cons_self (hfirst s rfl) hempty.1
  rw [components_eq, origin, hrelative, segments, hsplit, segmentsOf_middle h hfirst]
  rfl

theorem root_not_mem_spoken (ss : List Segment) : Component.root ∉ spoken ss := by
  intro hmem
  obtain ⟨s, _, hs⟩ := List.mem_map.mp hmem
  unfold componentOf at hs
  split at hs
  · simp at hs
  · split at hs <;> simp at hs

theorem isAbsolute_iff_head : p.isAbsolute = true ↔ p.components.head? = some .root := by
  rw [components_eq, origin]
  by_cases h : p.isAbsolute
  · simp [h]
  · refine iff_of_false h ?_
    rw [if_neg h, List.nil_append]
    exact fun hhead => root_not_mem_spoken _ (List.mem_of_mem_head? hhead)

/-- What is left of a path after one that it begins with. -/
theorem components_relativeTo (h : p.components = base.components ++ cs)
    (hbase : base.components ≠ []) : (relativeTo base p).components = cs := by
  have habsolute : p.isAbsolute = base.isAbsolute := by
    obtain ⟨c, rest, hrest⟩ := List.exists_cons_of_ne_nil hbase
    rw [Bool.eq_iff_iff, isAbsolute_iff_head, isAbsolute_iff_head, h, hrest]
    rfl
  have hspoken : spoken p.segments = spoken base.segments ++ cs := by
    rw [components_eq, components_eq, origin, origin, habsolute, List.append_assoc] at h
    exact List.append_cancel_left h
  have hprefix : base.components.isPrefixOf p.components = true := by
    rw [List.isPrefixOf_iff_prefix, h]
    exact List.prefix_append _ _
  have hcount : (base.segments.filter (·.counts)).length = (spoken base.segments).length := by
    rw [spoken, List.length_map]
  unfold relativeTo stripPrefix?
  rw [if_pos hprefix, if_neg (by simpa using hbase), hcount]
  dsimp only [Option.getD_some]
  have hkept := spoken_dropCounting (spoken base.segments).length p.segments
  rw [hspoken, List.drop_left] at hkept
  have hsuffix := suffix_dropCounting (spoken base.segments).length p.segments
  generalize dropCounting (spoken base.segments).length p.segments = kept at hkept hsuffix
  obtain ⟨before, hbefore⟩ := (List.dropWhile_suffix fun s : Segment => !s.counts).trans hsuffix
  have hfirst := List.head?_dropWhile_not (fun s : Segment => !s.counts) kept
  rw [← hkept, ← spoken_dropWhile]
  generalize kept.dropWhile (fun s => !s.counts) = middle at hbefore hfirst
  obtain ⟨rest, hmiddle, _, hlast⟩ := trimEnd_append middle
  rw [← spoken_trimEnd middle]
  have hwhole : p.segments = before ++ trimEnd middle ++ rest := by
    rw [List.append_assoc, ← hmiddle, hbefore]
  refine components_ofSegments hwhole ?_ hlast
  intro s hs
  have hhead : middle.head? = some s := by
    rw [hmiddle, List.head?_append, hs]
    rfl
  rw [hhead] at hfirst
  simpa using hfirst

end Workyard.FilePath
