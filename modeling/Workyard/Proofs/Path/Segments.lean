import Workyard.Path.FilePath

/-!
# Segments of a path

A path is a list of segments, cut at its slashes. Its parent is made of leading segments of its
own, and a name beside that of the path has the same leading segments.
-/

namespace Workyard.FilePath

set_option autoImplicit false

theorem segmentsOf_text (texts : List (List Char)) : (segmentsOf texts).map (·.text) = texts := by
  cases texts with
  | nil => rfl
  | cons first rest => simp [segmentsOf, List.map_map, Function.comp_def]

theorem segments_text (p : FilePath) :
    p.segments.map (·.text) = Text.splitAt '/' p.text.toList :=
  segmentsOf_text _

/-- The segments of a path before its last one. -/
def leading (p : FilePath) : List (List Char) :=
  (Text.splitAt '/' p.text.toList).dropLast

def lastSegment (p : FilePath) : List Char :=
  (Text.splitAt '/' p.text.toList).getLast (Text.splitAt_ne_nil _ _)

theorem leading_append_lastSegment (p : FilePath) :
    p.leading ++ [p.lastSegment] = p.segments.map (·.text) := by
  rw [segments_text]
  exact List.dropLast_concat_getLast _

/-- The path goes on in the name of its last segment. -/
def extended (p : FilePath) (ending : String) : FilePath :=
  ⟨p.text ++ ending⟩

variable {ending : String}

theorem leading_extended (h : '/' ∉ ending.toList) (p : FilePath) :
    (p.extended ending).leading = p.leading := by
  simp [leading, extended, Text.splitAt_append h]

theorem lastSegment_extended (h : '/' ∉ ending.toList) (p : FilePath) :
    (p.extended ending).lastSegment = p.lastSegment ++ ending.toList := by
  simp [lastSegment, extended, Text.splitAt_append h]

theorem isAbsolute_extended {p : FilePath} (hp : p.text ≠ "") (ending : String) :
    (p.extended ending).isAbsolute = p.isAbsolute := by
  unfold isAbsolute
  cases ht : p.text.toList with
  | nil => exact absurd (String.toList_eq_nil_iff.mp ht) hp
  | cons c cs => simp [extended, ht]

theorem isAbsolute_iff {p : FilePath} :
    p.isAbsolute ↔ ∃ s ss, Text.splitAt '/' p.text.toList = [] :: s :: ss := by
  unfold isAbsolute
  cases p.text.toList with
  | nil => simp [Text.splitAt]
  | cons c cs =>
    by_cases hc : c = '/'
    · cases hs : Text.splitAt '/' cs with
      | nil => exact absurd hs (Text.splitAt_ne_nil '/' cs)
      | cons s ss => simp [Text.splitAt, hc, hs]
    · cases hs : Text.splitAt '/' cs <;> simp [Text.splitAt, hc, hs]

/-- Only segments that say nothing are trimmed, and the last one that is left counts. -/
theorem trimEnd_append (ss : List Segment) :
    ∃ rest, ss = trimEnd ss ++ rest ∧ (∀ s ∈ rest, s.counts = false) ∧
      ∀ s ∈ (trimEnd ss).getLast?, s.counts = true := by
  refine ⟨(ss.reverse.takeWhile fun s => !s.counts).reverse, ?_, fun s hs => ?_, fun s hs => ?_⟩
  · rw [trimEnd, ← List.reverse_append, List.takeWhile_append_dropWhile, List.reverse_reverse]
  · simpa using List.all_eq_true.mp List.all_takeWhile s (List.mem_reverse.mp hs)
  · have hhead := List.head?_dropWhile_not (fun s : Segment => !s.counts) ss.reverse
    simp only [trimEnd, List.getLast?_reverse] at hs
    grind

/-- The segments of a parent are leading ones of the path, the last of which counts. -/
theorem parent?_eq_some {p q : FilePath} (h : p.parent? = some q) :
    ∃ before after, p.segments = before ++ after ∧ after ≠ [] ∧
      q = ofSegments p.isAbsolute before ∧ ∀ s ∈ before.getLast?, s.counts = true := by
  unfold parent? at h
  cases hd : p.segments.reverse.dropWhile fun s => !s.counts with
  | nil => simp [hd] at h
  | cons x rest =>
    simp only [hd, Option.some.injEq] at h
    obtain ⟨trimmed, hseg, _, _⟩ := trimEnd_append p.segments
    obtain ⟨trimmed', hrest, _, hlast⟩ := trimEnd_append rest.reverse
    rw [trimEnd, hd, List.reverse_cons, hrest] at hseg
    exact ⟨trimEnd rest.reverse, trimmed' ++ [x] ++ trimmed, by simpa using hseg, by simp,
      h.symm, hlast⟩

theorem counts_segments {p : FilePath} {s : Segment} (hs : s ∈ p.segments) :
    (s.counts = false → s.text = [] ∨ s.text = ['.']) ∧ (s.counts = true → s.text ≠ []) := by
  unfold segments at hs
  cases ht : Text.splitAt '/' p.text.toList with
  | nil => simp [ht, segmentsOf] at hs
  | cons first rest =>
    simp only [ht, segmentsOf, List.mem_cons, List.mem_map] at hs
    rcases hs with rfl | ⟨t, _, rfl⟩
    · grind
    · grind [countsWithin]

/-- A path that its leading segments alone would make, if there are any. -/
theorem segments_ofSegments {a : Bool} {ss : List Segment} (hne : ss ≠ [])
    (hsep : ∀ s ∈ ss, '/' ∉ s.text) (hlast : ∀ s ∈ ss.getLast?, s.text ≠ []) :
    (ofSegments a ss).text ≠ "" ∧
      Text.splitAt '/' (ofSegments a ss).text.toList = ss.map (·.text) := by
  have hsplit : Text.splitAt '/' (Text.joinWith ['/'] (ss.map (·.text))) = ss.map (·.text) := by
    apply Text.splitAt_joinWith
    · simpa using hne
    · simpa using hsep
  have hjoin : Text.joinWith ['/'] (ss.map (·.text)) ≠ [] := by
    intro hj
    rw [hj] at hsplit
    have : (ss.map (·.text)).getLast? = some [] := by rw [← hsplit]; rfl
    simp only [List.getLast?_map, Option.map_eq_some_iff] at this
    obtain ⟨s, hs, ht⟩ := this
    exact hlast s hs ht
  simp [ofSegments, hjoin, hsplit]

/-- The path of segments that another path begins with starts where that path does. -/
theorem ofSegments_before {p : FilePath} {before after : List Segment}
    (hseg : p.segments = before ++ after) (hne : before ≠ [])
    (hlast : ∀ s ∈ before.getLast?, s.counts = true) :
    (ofSegments p.isAbsolute before).text ≠ "" ∧
      Text.splitAt '/' (ofSegments p.isAbsolute before).text.toList = before.map (·.text) ∧
      (ofSegments p.isAbsolute before).isAbsolute = p.isAbsolute := by
  have hsplit : before.map (·.text) ++ after.map (·.text) = Text.splitAt '/' p.text.toList := by
    rw [← segments_text, hseg, List.map_append]
  have hsep : ∀ s ∈ before, '/' ∉ s.text := by
    intro s hs
    apply @Text.not_mem_of_mem_splitAt '/' p.text.toList
    rw [← hsplit]
    exact List.mem_append_left _ (List.mem_map_of_mem hs)
  have htext : ∀ s ∈ before.getLast?, s.text ≠ [] := by
    intro s hs
    apply (counts_segments (p := p) _).2 (hlast s hs)
    rw [hseg]
    exact List.mem_append_left _ (List.mem_of_getLast? hs)
  obtain ⟨ht, hq⟩ := segments_ofSegments (a := p.isAbsolute) hne hsep htext
  refine ⟨ht, hq, ?_⟩
  rw [Bool.eq_iff_iff, isAbsolute_iff, isAbsolute_iff, hq, ← hsplit]
  match before, hne, htext with
  | [b], _, htext => simp [htext b rfl]
  | b :: c :: bs, _, _ => simp

theorem trimSlash_of_endsInSlash {p : FilePath} (h : p.endsInSlash = false) : p.trimSlash = p := by
  unfold endsInSlash at h
  unfold trimSlash isAbsolute
  rw [← List.head?_reverse] at h
  have hkept : (p.text.toList.reverse.dropWhile (· = '/')) = p.text.toList.reverse := by
    cases hr : p.text.toList.reverse with
    | nil => rfl
    | cons c cs =>
      have hc : c ≠ '/' := by simpa [hr] using h
      simp [hc]
  have hcond : (p.text.toList.isEmpty && (p.text.toList.head? == some '/')) = false := by
    cases p.text.toList <;> rfl
  simp [hkept, hcond]

/-- The text of a path is what is left of it without slashes at its end, and slashes. -/
theorem text_eq_kept_append (p : FilePath) :
    ∃ kept slashes, p.text.toList = kept ++ slashes ∧ (∀ c ∈ slashes, c = '/') ∧
      p.trimSlash = ⟨String.ofList (if kept.isEmpty && p.isAbsolute then ['/'] else kept)⟩ := by
  refine ⟨_, (p.text.toList.reverse.takeWhile (· = '/')).reverse, ?_, ?_, rfl⟩
  · rw [← List.reverse_append, List.takeWhile_append_dropWhile, List.reverse_reverse]
  · intro c hc
    simpa using List.all_eq_true.mp List.all_takeWhile c (List.mem_reverse.mp hc)

/-- The last segment is the name of something, not a dot or two dots. -/
def EndsInName (p : FilePath) : Prop :=
  p.lastSegment ≠ [] ∧ p.lastSegment ≠ ['.'] ∧ p.lastSegment ≠ ['.', '.']

theorem segments_dropLast (p : FilePath) : p.segments.dropLast = segmentsOf p.leading := by
  unfold segments leading
  cases Text.splitAt '/' p.text.toList with
  | nil => rfl
  | cons first rest =>
    cases rest with
    | nil => rfl
    | cons second rest => simp [segmentsOf, List.map_dropLast]

theorem text_ne_of_endsInName {p : FilePath} (h : p.EndsInName) : p.text ≠ "" := by
  intro hp
  apply h.1
  simp [lastSegment, hp, Text.splitAt]

theorem segments_of_endsInName {p : FilePath} (h : p.EndsInName) :
    p.segments = segmentsOf p.leading ++ [⟨p.lastSegment, true⟩] := by
  have hne : p.segments ≠ [] := by
    intro hnil
    have := p.leading_append_lastSegment
    simp [hnil] at this
  have hsplit := List.dropLast_concat_getLast hne
  have hlast : (p.segments.getLast hne).text = p.lastSegment := by
    have := congrArg List.getLast? p.leading_append_lastSegment
    rw [← hsplit] at this
    simpa [eq_comm] using this
  have hcounts : (p.segments.getLast hne).counts = true := by
    by_cases hc : (p.segments.getLast hne).counts = true
    · exact hc
    · have := (counts_segments (List.getLast_mem hne)).1 (by simpa using hc)
      rw [hlast] at this
      exact absurd this (by simp [h.1, h.2.1])
  rw [← hsplit, segments_dropLast, ← hlast, ← hcounts]

/-- The parent of a path that ends in a name is made of the segments before it. -/
theorem parent?_of_endsInName {p : FilePath} (h : p.EndsInName) :
    p.parent? = some (ofSegments p.isAbsolute (trimEnd (segmentsOf p.leading))) := by
  unfold parent?
  rw [segments_of_endsInName h]
  simp

theorem fileName?_of_endsInName {p : FilePath} (h : p.EndsInName) :
    p.fileName? = some (String.ofList p.lastSegment) := by
  have hlast : componentOf p.lastSegment = .name (String.ofList p.lastSegment) := by
    rw [componentOf, if_neg h.2.1, if_neg h.2.2]
  unfold fileName? components
  rw [segments_of_endsInName h]
  split
  · rename_i name hname
    split at hname <;> simp_all [List.getLast?_cons]
  · rename_i hnot
    refine absurd ?_ (hnot (String.ofList p.lastSegment))
    split <;> simp [hlast, List.getLast?_cons]

theorem parent?_extended {p : FilePath} (hp : p.EndsInName) (h : (p.extended ending).EndsInName)
    (he : '/' ∉ ending.toList) : (p.extended ending).parent? = p.parent? := by
  rw [parent?_of_endsInName hp, parent?_of_endsInName h, leading_extended he,
    isAbsolute_extended (text_ne_of_endsInName hp)]

/-- A text that is the name of something, not a dot or two dots. -/
def IsName (name : String) : Prop :=
  '/' ∉ name.toList ∧ name ≠ "" ∧ name ≠ "." ∧ name ≠ ".."

instance (name : String) : Decidable (IsName name) :=
  inferInstanceAs (Decidable (_ ∧ _))

variable {name : String}

theorem isAbsolute_of_isName (h : IsName name) : (⟨name⟩ : FilePath).isAbsolute = false := by
  unfold isAbsolute
  cases hn : name.toList with
  | nil => rfl
  | cons c cs =>
    have hc : c ≠ '/' := by
      rintro rfl
      exact h.1 (by simp [hn])
    simpa using hc

/-- A joined path has a slash between the two, which may be the one at the end of the first. -/
theorem text_join {p q : FilePath} (hp : p.text ≠ "") (hq : q.isAbsolute = false) :
    ∃ cs, (p.join q).text.toList = cs ++ '/' :: q.text.toList ∧
      (p.text.toList = cs ∨ p.text.toList = cs ++ ['/']) := by
  unfold join
  cases hslash : p.endsInSlash with
  | true =>
    obtain ⟨cs, hcs⟩ : ∃ cs, p.text.toList = cs ++ ['/'] :=
      List.getLast?_eq_some_iff.mp (by simpa [endsInSlash] using hslash)
    exact ⟨cs, by simp [hq, hcs], .inr hcs⟩
  | false => exact ⟨p.text.toList, by simp [hq, hp], .inl rfl⟩

theorem isAbsolute_join {p q : FilePath} (hp : p.text ≠ "") (hq : q.isAbsolute = false) :
    (p.join q).isAbsolute = p.isAbsolute := by
  obtain ⟨cs, htext, hcs⟩ := text_join hp hq
  have hne : p.text.toList ≠ [] := fun hnil => hp (String.toList_eq_nil_iff.mp hnil)
  unfold isAbsolute
  rw [htext]
  rcases hcs with hcs | hcs
  · rw [hcs] at hne ⊢
    obtain ⟨c, cs, rfl⟩ := List.exists_cons_of_ne_nil hne
    rfl
  · rw [hcs]
    cases cs <;> rfl

theorem child_of_empty (h : IsName name) {q : FilePath} (hq : q.text = "") : q.child name = ⟨name⟩ := by
  unfold child join
  rw [isAbsolute_of_isName h]
  simp [hq]

theorem text_child (h : IsName name) (q : FilePath) :
    (q.text = "" ∧ (q.child name).text = name) ∨
      ∃ cs, q.text ≠ "" ∧ (q.child name).text.toList = cs ++ '/' :: name.toList ∧
        (q.text.toList = cs ∨ q.text.toList = cs ++ ['/']) := by
  by_cases hq : q.text = ""
  · exact .inl ⟨hq, by rw [child_of_empty h hq]⟩
  · obtain ⟨cs, htext, hcs⟩ := text_join hq (isAbsolute_of_isName h)
    exact .inr ⟨cs, hq, htext, hcs⟩

theorem isAbsolute_child (h : IsName name) (q : FilePath) :
    (q.child name).isAbsolute = q.isAbsolute := by
  by_cases hq : q.text = ""
  · rw [child_of_empty h hq, isAbsolute_of_isName h]
    simp [isAbsolute, hq]
  · exact isAbsolute_join hq (isAbsolute_of_isName h)

theorem lastSegment_child (h : IsName name) (q : FilePath) :
    (q.child name).lastSegment = name.toList := by
  unfold lastSegment
  rcases text_child h q with ⟨_, htext⟩ | ⟨cs, _, htext, _⟩
  · simp [htext, Text.splitAt_of_not_mem h.1]
  · simp [htext, Text.splitAt_append_cons, Text.splitAt_of_not_mem h.1]

theorem endsInName_of_isName {p : FilePath} (h : IsName name) (hp : p.lastSegment = name.toList) :
    p.EndsInName := by
  unfold EndsInName
  rw [hp]
  refine ⟨fun hn => h.2.1 ?_, fun hn => h.2.2.1 ?_, fun hn => h.2.2.2 ?_⟩
  · exact String.toList_eq_nil_iff.mp hn
  · exact String.toList_injective hn
  · exact String.toList_injective hn

theorem endsInName_child (h : IsName name) (q : FilePath) : (q.child name).EndsInName :=
  endsInName_of_isName h (lastSegment_child h q)

theorem fileName?_child (h : IsName name) (q : FilePath) : (q.child name).fileName? = some name := by
  rw [fileName?_of_endsInName (endsInName_child h q), lastSegment_child h, String.ofList_toList]

theorem fileName?_of_isName (h : IsName name) : (⟨name⟩ : FilePath).fileName? = some name := by
  have hlast : (⟨name⟩ : FilePath).lastSegment = name.toList := by
    simp [lastSegment, Text.splitAt_of_not_mem h.1]
  rw [fileName?_of_endsInName (endsInName_of_isName h hlast), hlast, String.ofList_toList]

/-- The last segment of a path that ends in a name is one. -/
theorem isName_of_endsInName {p : FilePath} (h : p.EndsInName) :
    IsName (String.ofList p.lastSegment) := by
  have hsep : '/' ∉ p.lastSegment := Text.not_mem_of_mem_splitAt (List.getLast_mem _)
  refine ⟨by simpa using hsep, fun hn => h.1 ?_, fun hn => h.2.1 ?_, fun hn => h.2.2 ?_⟩ <;>
    simpa using congrArg String.toList hn

end Workyard.FilePath
