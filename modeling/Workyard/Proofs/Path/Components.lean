import Workyard.Proofs.Path.Segments

/-!
# Components of joined paths

What a path says is its list of components. Joining puts the components of the second path after
those of the first, and another name in the place of the last one changes that component alone.
-/

namespace Workyard.FilePath

set_option autoImplicit false

open Text

/-- What segments say. -/
def spoken (ss : List Segment) : List Component :=
  (ss.filter (·.counts)).map fun s => componentOf s.text

/-- What a path says when it goes on from another one. -/
def within (p : FilePath) : List Component :=
  ((splitAt '/' p.text.toList).filter countsWithin).map componentOf

def origin (p : FilePath) : List Component :=
  if p.isAbsolute then [.root] else []

theorem components_eq (p : FilePath) : p.components = p.origin ++ spoken p.segments := by
  unfold components origin spoken
  by_cases h : p.isAbsolute <;> simp [h]

theorem spoken_append (ss ts : List Segment) : spoken (ss ++ ts) = spoken ss ++ spoken ts := by
  simp [spoken]

theorem spoken_of_quiet {ss : List Segment} (h : ∀ s ∈ ss, s.counts = false) : spoken ss = [] := by
  unfold spoken
  rw [List.filter_eq_nil_iff.mpr fun s hs => by simp [h s hs]]
  rfl

theorem spoken_within (texts : List (List Char)) :
    spoken (texts.map fun s => ⟨s, countsWithin s⟩) = (texts.filter countsWithin).map componentOf := by
  unfold spoken
  rw [List.filter_map, List.map_map]
  rfl

theorem segmentsOf_append {texts : List (List Char)} (h : texts ≠ []) (more : List (List Char)) :
    segmentsOf (texts ++ more) = segmentsOf texts ++ more.map fun s => ⟨s, countsWithin s⟩ := by
  obtain ⟨first, rest, rfl⟩ := List.exists_cons_of_ne_nil h
  simp [segmentsOf]

/-- Leading segments of a path are counted alone as they are within it. -/
theorem segmentsOf_before {texts : List (List Char)} {before after : List Segment}
    (h : segmentsOf texts = before ++ after) : segmentsOf (before.map (·.text)) = before := by
  have htexts : texts = before.map (·.text) ++ after.map (·.text) := by
    rw [← List.map_append, ← h, segmentsOf_text]
  by_cases hbefore : before = []
  · rw [hbefore]
    rfl
  · rw [htexts, segmentsOf_append (by simpa using hbefore)] at h
    refine (List.append_inj h ?_).1
    have hlength := congrArg List.length (segmentsOf_text (before.map (·.text)))
    simpa using hlength

theorem components_join {p q : FilePath} (hp : p.text ≠ "") (hq : q.isAbsolute = false) :
    (p.join q).components = p.components ++ q.within := by
  obtain ⟨cs, htext, hcs⟩ := text_join hp hq
  have hjoined : (p.join q).segments =
      segmentsOf (splitAt '/' cs) ++ (splitAt '/' q.text.toList).map fun s => ⟨s, countsWithin s⟩ := by
    unfold segments
    rw [htext, splitAt_append_cons, segmentsOf_append (splitAt_ne_nil '/' cs)]
  have hfirst : spoken p.segments = spoken (segmentsOf (splitAt '/' cs)) := by
    unfold segments
    rcases hcs with hcs | hcs <;> rw [hcs]
    -- A slash at the end makes one more segment, which says nothing.
    have hempty : splitAt '/' [] = [[]] := rfl
    rw [splitAt_append_cons, hempty, segmentsOf_append (splitAt_ne_nil '/' cs), spoken_append]
    have hquiet : spoken [⟨[], countsWithin []⟩] = [] := spoken_of_quiet (by decide)
    rw [List.map_singleton, hquiet, List.append_nil]
  have horigin : (p.join q).origin = p.origin := by simp [origin, isAbsolute_join hp hq]
  rw [components_eq, components_eq p, horigin, hjoined, spoken_append, hfirst, spoken_within,
    List.append_assoc]
  rfl

theorem within_of_isName {name : String} (h : IsName name) : (⟨name⟩ : FilePath).within = [.name name] := by
  obtain ⟨hslash, hne, hdot, hdots⟩ := h
  have hcounts : countsWithin name.toList = true := by
    unfold countsWithin
    simp only [decide_eq_true_eq]
    exact ⟨fun hn => hne (String.toList_eq_nil_iff.mp hn), fun hn => hdot (String.toList_injective hn)⟩
  have hcomponent : componentOf name.toList = .name name := by
    have hone : name.toList ≠ ['.'] := fun hn => hdot (String.toList_injective hn)
    have htwo : name.toList ≠ ['.', '.'] := fun hn => hdots (String.toList_injective hn)
    rw [componentOf, if_neg hone, if_neg htwo, String.ofList_toList]
  simp [within, splitAt_of_not_mem hslash, hcounts, hcomponent]

theorem components_of_endsInName {p : FilePath} (h : p.EndsInName) :
    p.components = p.origin ++ spoken (segmentsOf p.leading) ++
      [.name (String.ofList p.lastSegment)] := by
  have hlast : componentOf p.lastSegment = .name (String.ofList p.lastSegment) := by
    rw [componentOf, if_neg h.2.1, if_neg h.2.2]
  rw [components_eq, segments_of_endsInName h, spoken_append, ← List.append_assoc]
  simp [spoken, hlast]

theorem components_child {name : String} (h : IsName name) (q : FilePath) :
    (q.child name).components = q.components ++ [.name name] := by
  by_cases hq : q.text = ""
  · have hlast : (⟨name⟩ : FilePath).lastSegment = name.toList := by
      simp [lastSegment, splitAt_of_not_mem h.1]
    have hnone : q.components = [] := by
      simp [components, segments, isAbsolute, hq, splitAt, segmentsOf]
    rw [child_of_empty h hq, components_of_endsInName (endsInName_of_isName h hlast), hlast, hnone]
    simp [origin, isAbsolute_of_isName h, leading, splitAt_of_not_mem h.1, segmentsOf, spoken]
  · unfold child
    rw [components_join hq (isAbsolute_of_isName h), within_of_isName h]

theorem components_parent {p q : FilePath} (h : p.EndsInName) (hq : p.parent? = some q) :
    p.components = q.components ++ [.name (String.ofList p.lastSegment)] := by
  rw [parent?_of_endsInName h, Option.some_inj] at hq
  obtain ⟨trimmed, hsegments, htrimmed, hlast⟩ := trimEnd_append (segmentsOf p.leading)
  have hwhole := segments_of_endsInName h
  rw [hsegments, List.append_assoc] at hwhole
  rw [components_of_endsInName h, hsegments, spoken_append, spoken_of_quiet htrimmed, List.append_nil]
  congr 1
  subst hq
  rw [components_eq]
  generalize trimEnd (segmentsOf p.leading) = kept at *
  by_cases hkept : kept = []
  · subst hkept
    unfold origin
    cases p.isAbsolute with
    | false => rfl
    | true => rfl
  · obtain ⟨_, htext, habs⟩ := ofSegments_before hwhole hkept hlast
    have hsame : (ofSegments p.isAbsolute kept).segments = kept := by
      unfold segments
      rw [htext]
      exact segmentsOf_before hsegments
    rw [hsame]
    simp [origin, habs]

/-- Another name takes the place of the last component. -/
theorem components_withFileName {p : FilePath} {name : String} (h : p.EndsInName) (hn : IsName name) :
    (p.withFileName name).components = p.components.dropLast ++ [.name name] := by
  obtain ⟨q, hq⟩ : ∃ q, p.parent? = some q := ⟨_, parent?_of_endsInName h⟩
  unfold withFileName
  rw [fileName?_of_endsInName h, hq]
  simp only [Option.isSome_some, if_true, Option.getD_some]
  rw [components_child hn, components_parent h hq, List.dropLast_concat]

end Workyard.FilePath
