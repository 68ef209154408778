import Workyard.Proofs.Path.Joining

/-!
# The form of joined paths

Cut at its slashes, a joined path has no empty segment but at its ends and no dot but alone, and it
goes up only at its start. The segments are what a walk over those of the fragments leaves: a climb
above the start, and the names below it.
-/

namespace Workyard.Path

set_option autoImplicit false

open Text
open FilePath (countsWithin)

variable {absolute trailing : Bool} {path : List Char} {names : List (List Char)}

/-! ### Walks -/

/-- How far a walk has climbed above its start, and by which names it has come down from there. -/
structure Walk where
  climbed : Nat
  names : List (List Char)

namespace Walk

/-- A step up goes back to where the last name was taken. With none left it climbs, unless the start
is at the top. -/
def step (absolute : Bool) (w : Walk) (segment : List Char) : Walk :=
  if segment = [] ∨ segment = ['.'] then w
  else if segment = up then
    if w.names ≠ [] then { w with names := w.names.dropLast }
    else if absolute then w
    else { w with climbed := w.climbed + 1 }
  else { w with names := w.names ++ [segment] }

def along (absolute : Bool) (segments : List (List Char)) : Walk :=
  segments.foldl (step absolute) ⟨0, []⟩

/-- What is left of the segments. -/
def segments (w : Walk) : List (List Char) :=
  List.replicate w.climbed up ++ w.names

/-- No name goes up, and there is no climb from the top. -/
structure Sound (absolute : Bool) (w : Walk) : Prop where
  names : up ∉ w.names
  climbed : absolute = true → w.climbed = 0

theorem Sound.step {w : Walk} (h : Sound absolute w) (segment : List Char) :
    Sound absolute (w.step absolute segment) := by
  unfold Walk.step
  split
  · exact h
  split
  · split
    · exact ⟨fun hmem => h.names (List.dropLast_subset _ hmem), h.climbed⟩
    split
    · exact h
    · rename_i habsolute
      exact ⟨h.names, fun h => absurd h habsolute⟩
  · rename_i hup
    refine ⟨fun hmem => ?_, h.climbed⟩
    rcases List.mem_append.mp hmem with hmem | hmem
    · exact h.names hmem
    · exact hup (List.mem_singleton.mp hmem).symm

/-- The stack of segments holds the walk upside down. -/
theorem pushSegment_segments {w : Walk} (h : Sound absolute w) (segment : List Char) :
    pushSegment absolute w.segments.reverse segment =
      (w.step absolute segment).segments.reverse := by
  obtain ⟨climbed, names⟩ := w
  unfold step
  split
  · rename_i hquiet
    exact if_pos hquiet
  rename_i hloud
  split
  · rename_i hup
    subst hup
    rcases List.eq_nil_or_concat names with rfl | ⟨before, last, rfl⟩
    · rw [if_neg (by simp)]
      cases absolute with
      | true =>
        obtain rfl : climbed = 0 := h.climbed rfl
        rfl
      | false =>
        have hkept : pushSegment false (List.replicate climbed up) up =
            List.replicate (climbed + 1) up := by
          cases climbed <;> rfl
        rw [if_neg Bool.false_ne_true]
        simpa [segments] using hkept
    · have hlast : last ≠ up := by
        rintro rfl
        exact h.names (by simp)
      rw [if_pos (by simp)]
      simp [segments, pushSegment, up, (show last ≠ ['.', '.'] from hlast)]
  · rename_i hup
    have hstep : IsStep segment := ⟨countsWithin_iff.mpr (not_or.mp hloud), hup⟩
    rw [pushSegment_step hstep]
    simp [segments]

theorem foldl_pushSegment_eq {w : Walk} (h : Sound absolute w) (ss : List (List Char)) :
    ss.foldl (pushSegment absolute) w.segments.reverse =
        (ss.foldl (step absolute) w).segments.reverse ∧
      Sound absolute (ss.foldl (step absolute) w) := by
  induction ss generalizing w with
  | nil => exact ⟨rfl, h⟩
  | cons s ss ih =>
    rw [List.foldl_cons, List.foldl_cons, pushSegment_segments h s]
    exact ih (h.step s)

theorem sound_along (absolute : Bool) (ss : List (List Char)) : Sound absolute (along absolute ss) :=
  (foldl_pushSegment_eq ⟨List.not_mem_nil, fun _ => rfl⟩ ss).2

theorem foldl_pushSegment_nil (absolute : Bool) (ss : List (List Char)) :
    (ss.foldl (pushSegment absolute) []).reverse = (along absolute ss).segments := by
  have hstart : Sound absolute ⟨0, []⟩ := ⟨List.not_mem_nil, fun _ => rfl⟩
  have hfold := (foldl_pushSegment_eq hstart ss).1
  exact (congrArg List.reverse hfold).trans (List.reverse_reverse _)

end Walk

/-! ### Segments of fragments -/

/-- The segments of the fragments, one fragment after the other. -/
def segmentsOf (fragments : List String) : List (List Char) :=
  fragments.flatMap fun f => splitAt '/' (slashes f)

theorem spoken_glue (p q : List Char) : spoken (glue p q) = spoken p ++ spoken q := by
  unfold glue
  split
  · rename_i h
    rw [h, spoken_nil, List.nil_append]
  · split
    · rename_i h
      rw [h, spoken_nil, List.append_nil]
    · exact spoken_append_cons p q

theorem spoken_glued (fragments : List String) :
    spoken (glued fragments) = (segmentsOf fragments).filter countsWithin := by
  induction fragments with
  | nil => rfl
  | cons f fs ih =>
    have hsegments : segmentsOf (f :: fs) = splitAt '/' (slashes f) ++ segmentsOf fs :=
      List.flatMap_cons
    rw [hsegments, List.filter_append, ← ih]
    exact spoken_glue (slashes f) (glued fs)

theorem resolve_glued (fragments : List String) : resolve (glued fragments) =
    (Walk.along (rooted (glued fragments)) (segmentsOf fragments)).segments := by
  rw [resolve_eq, spoken_glued, foldl_filter_countsWithin, Walk.foldl_pushSegment_nil]

/-! ### Where a path starts and ends -/

def IsSeparator (c : Char) : Prop :=
  c = '/' ∨ c = '\\'

/-- The fragments that say something. -/
def sayings (fragments : List String) : List String :=
  fragments.filter (· ≠ "")

theorem slashed_eq_slash {c : Char} : slashed c = '/' ↔ IsSeparator c := by
  unfold slashed IsSeparator
  split
  · rename_i h
    simp [h]
  · rename_i h
    simp [h]

theorem rooted_slashes_iff (f : String) :
    rooted (slashes f) = true ↔ ∃ c ∈ f.toList.head?, IsSeparator c := by
  unfold rooted slashes
  rw [beq_iff_eq, List.head?_map]
  cases f.toList.head? <;> simp [slashed_eq_slash]

theorem trails_slashes_iff (f : String) :
    trails (slashes f) = true ↔ ∃ c ∈ f.toList.getLast?, IsSeparator c := by
  unfold trails slashes
  rw [beq_iff_eq, List.getLast?_map]
  cases f.toList.getLast? <;> simp [slashed_eq_slash]

theorem glued_cons (f : String) (fs : List String) : glued (f :: fs) = glue (slashes f) (glued fs) :=
  rfl

theorem glued_sayings (fragments : List String) : glued (sayings fragments) = glued fragments := by
  induction fragments with
  | nil => rfl
  | cons f fs ih =>
    by_cases hf : f = ""
    · rw [sayings, List.filter_cons_of_neg (by simpa using hf), glued_cons f, slashes_eq_nil.mpr hf,
        glue_nil_left]
      exact ih
    · rw [sayings, List.filter_cons_of_pos (by simpa using hf), glued_cons, glued_cons]
      exact congrArg (glue (slashes f)) ih

theorem trails_glue {p q : List Char} (h : q ≠ []) : trails (glue p q) = trails q := by
  unfold glue
  split
  · rfl
  · rw [trails_append_cons h]

theorem rooted_glued_iff (fragments : List String) : rooted (glued fragments) = true ↔
    ∃ f ∈ (sayings fragments).head?, ∃ c ∈ f.toList.head?, IsSeparator c := by
  rw [← glued_sayings]
  cases hs : sayings fragments with
  | nil => simp [glued, glueAll, rooted]
  | cons f fs =>
    have hmem : f ∈ sayings fragments := hs ▸ List.mem_cons_self
    have hf : f ≠ "" := by simpa using (List.mem_filter.mp hmem).2
    rw [glued_cons, rooted_glue (mt slashes_eq_nil.mp hf), rooted_slashes_iff]
    simp

theorem trails_glued_iff (fragments : List String) : trails (glued fragments) = true ↔
    ∃ f ∈ (sayings fragments).getLast?, ∃ c ∈ f.toList.getLast?, IsSeparator c := by
  rw [← glued_sayings]
  rcases List.eq_nil_or_concat (sayings fragments) with hs | ⟨fs, f, hs⟩
  · simp [hs, glued, glueAll, trails]
  · have hmem : f ∈ sayings fragments := by simp [hs]
    have hf : f ≠ "" := by simpa using (List.mem_filter.mp hmem).2
    have hglued : glued [f] = slashes f := glue_nil_right _
    rw [hs, List.concat_eq_append, glued_append, hglued, trails_glue (mt slashes_eq_nil.mp hf),
      trails_slashes_iff]
    simp

/-! ### The segments that are written -/

/-- The segments of a path that is written from names. -/
theorem splitAt_render (h : Proper names) : splitAt '/' (render absolute names trailing) =
    (if absolute then [[]] else []) ++
      (if absolute = false ∧ names = [] then [['.']] else names) ++
      (if trailing || (absolute && names.isEmpty) then [[]] else []) := by
  have hplain : splitAt '/' (plain absolute names) = (if absolute then [[]] else []) ++
      (if absolute = false ∧ names = [] then [['.']] else names) ++
      (if absolute && names.isEmpty then [[]] else []) := by
    by_cases hne : names = []
    · subst hne
      cases absolute <;> rfl
    · have hsplit := splitAt_joinWith hne fun s hs => (h s hs).2
      cases absolute <;> simp [plain, splitAt, hne, hsplit]
  obtain ⟨_, _, htrails, _⟩ := plain_spec absolute h
  unfold render
  rw [htrails]
  cases trailing <;> cases habsolute : absolute && names.isEmpty <;>
    simp [splitAt_append_cons, splitAt, hplain, habsolute]

/-- The form of a resolved path. -/
structure IsCanonical (path : List Char) : Prop where
  ne_nil : path ≠ []
  backslash : '\\' ∉ path
  doubled : ¬ ['/', '/'] <:+: path
  dot : ['.'] ∈ splitAt '/' path → path = ['.'] ∨ path = ['.', '/']
  climb : ∃ n rest, splitAt '/' path = List.replicate n up ++ rest ∧ up ∉ rest ∧
    (rooted path = true → n = 0)

theorem ne_nil_of_proper (h : Proper names) : [] ∉ names :=
  fun hmem => (countsWithin_iff.mp (h _ hmem).1).1 rfl

/-- Between two slashes next to each other is an empty segment, with others on both sides. -/
theorem not_doubled (h : Proper names) : ¬ ['/', '/'] <:+: render absolute names trailing := by
  rintro ⟨before, after, heq⟩
  have hcut : splitAt '/' (render absolute names trailing) =
      splitAt '/' before ++ [[]] ++ splitAt '/' after := by
    rw [← heq, List.append_assoc, List.cons_append, List.cons_append, List.nil_append,
      splitAt_append_cons, ← List.nil_append ('/' :: after), splitAt_append_cons,
      ← List.append_assoc]
    rfl
  obtain ⟨b, bs, hbefore⟩ := List.exists_cons_of_ne_nil (splitAt_ne_nil '/' before)
  have hmem : [] ∈ (splitAt '/' (render absolute names trailing)).tail.dropLast := by
    rw [hcut, hbefore, List.cons_append, List.cons_append, List.tail_cons,
      List.dropLast_append_of_ne_nil (splitAt_ne_nil '/' after)]
    simp
  refine ne_nil_of_proper h ?_
  rw [splitAt_render h] at hmem
  by_cases hne : names = []
  · subst hne
    cases absolute <;> cases trailing <;> simp at hmem
  · obtain ⟨s, ss, rfl⟩ := List.exists_cons_of_ne_nil hne
    cases absolute <;> cases trailing
    · exact List.mem_cons_of_mem s (List.dropLast_subset ss (by simpa using hmem))
    · exact List.mem_cons_of_mem s (by simpa using hmem)
    · exact List.dropLast_subset (s :: ss) (by simpa using hmem)
    · have hinner : [] ∈ (s :: ss ++ [[]]).dropLast := by simpa using hmem
      rwa [List.dropLast_concat] at hinner

theorem eq_of_dot_mem (h : Proper names)
    (hdot : ['.'] ∈ splitAt '/' (render absolute names trailing)) :
    render absolute names trailing = ['.'] ∨ render absolute names trailing = ['.', '/'] := by
  have hnot : ['.'] ∉ names := fun hmem => (countsWithin_iff.mp (h _ hmem).1).2 rfl
  rw [splitAt_render h] at hdot
  by_cases hbody : absolute = false ∧ names = []
  · obtain ⟨rfl, rfl⟩ := hbody
    cases trailing
    · exact .inl rfl
    · exact .inr rfl
  · rw [if_neg hbody] at hdot
    refine absurd ?_ hnot
    cases absolute <;> cases trailing <;> simpa using hdot

/-- The climb is written first, and names after it. -/
theorem exists_climb {w : Walk} (hw : w.Sound absolute) (h : Proper w.segments) :
    ∃ n rest, splitAt '/' (render absolute w.segments trailing) = List.replicate n up ++ rest ∧
      up ∉ rest ∧ (absolute = true → n = 0) := by
  have hempty : up ≠ [] := by decide
  have hdot : up ≠ ['.'] := by decide
  rw [splitAt_render h]
  have htail : up ∉ (if trailing || (absolute && w.segments.isEmpty) then [[]] else [] :
      List (List Char)) := by
    split <;> simp [hempty]
  generalize (if trailing || (absolute && w.segments.isEmpty) then [[]] else [] :
    List (List Char)) = tail at htail ⊢
  cases absolute with
  | true =>
    have hsegments : w.segments = w.names := by
      rw [Walk.segments, hw.climbed rfl]
      rfl
    exact ⟨0, _, (List.nil_append _).symm, by simp [hsegments, hw.names, hempty, htail],
      fun _ => rfl⟩
  | false =>
    by_cases hnone : w.segments = []
    · exact ⟨0, _, (List.nil_append _).symm, by simp [hnone, hdot, htail], fun _ => rfl⟩
    · refine ⟨w.climbed, w.names ++ tail, ?_, ?_, fun h => Bool.noConfusion h⟩
      · rw [if_neg Bool.false_ne_true, if_neg fun h => hnone h.2, List.nil_append,
          ← List.append_assoc]
        rfl
      · exact List.not_mem_append hw.names htail

theorem normalize_glued (fragments : List String) : normalize (glued fragments) =
    render (rooted (glued fragments))
      (Walk.along (rooted (glued fragments)) (segmentsOf fragments)).segments
      (trails (glued fragments)) := by
  rw [normalize_eq, resolve_glued]

theorem isCanonical_normalize_glued (fragments : List String) :
    IsCanonical (normalize (glued fragments)) := by
  have hproper := proper_resolve (glued fragments)
  have hsound := Walk.sound_along (rooted (glued fragments)) (segmentsOf fragments)
  have hback := backslash_not_mem_normalize (backslash_not_mem_glued fragments)
  have hrooted := rooted_normalize (glued fragments)
  rw [resolve_glued] at hproper
  rw [normalize_glued] at hback hrooted ⊢
  refine ⟨render_ne_nil hproper, hback, not_doubled hproper, eq_of_dot_mem hproper, ?_⟩
  rw [hrooted]
  exact exists_climb hsound hproper

/-- A path that trails only as the root has no names. -/
theorem normalize_eq_root_iff (path : List Char) :
    normalize path = ['/'] ↔ rooted path = true ∧ resolve path = [] := by
  constructor
  · intro h
    have hrooted := rooted_normalize path
    have hspoken := spoken_normalize path
    rw [h] at hrooted hspoken
    exact ⟨hrooted.symm, hspoken.symm⟩
  · rintro ⟨hrooted, hresolve⟩
    rw [normalize_eq, hrooted, hresolve]
    cases trails path <;> rfl

/-- The form of what is joined, where it starts and ends, and the segments that are left. -/
theorem joinFragments_canonical (fragments : List String) :
    IsCanonical (joinFragments fragments).toList ∧
      ((joinFragments fragments).toList.head? = some '/' ↔
        ∃ f ∈ (sayings fragments).head?, ∃ c ∈ f.toList.head?, IsSeparator c) ∧
      ((joinFragments fragments).toList.getLast? = some '/' ↔
        joinFragments fragments = "/" ∨
          ∃ f ∈ (sayings fragments).getLast?, ∃ c ∈ f.toList.getLast?, IsSeparator c) ∧
      (splitAt '/' (joinFragments fragments).toList).filter (fun s => s ≠ [] ∧ s ≠ ['.']) =
        (Walk.along ((joinFragments fragments).toList.head? == some '/')
          (segmentsOf fragments)).segments := by
  have hrooted : ((joinFragments fragments).toList.head? == some '/') =
      rooted (glued fragments) := by
    rw [toList_joinFragments_eq]
    exact rooted_normalize (glued fragments)
  have htrails : ((joinFragments fragments).toList.getLast? == some '/') =
      (trails (glued fragments) ||
        (rooted (glued fragments) && (resolve (glued fragments)).isEmpty)) := by
    rw [toList_joinFragments_eq]
    exact trails_normalize (glued fragments)
  have hroot : joinFragments fragments = "/" ↔ normalize (glued fragments) = ['/'] := by
    rw [← toList_joinFragments_eq, ← String.toList_inj]
    rfl
  refine ⟨?_, ?_, ?_, ?_⟩
  · rw [toList_joinFragments_eq]
    exact isCanonical_normalize_glued fragments
  · rw [← beq_iff_eq, hrooted, rooted_glued_iff]
  · rw [← beq_iff_eq, htrails, hroot, normalize_eq_root_iff, ← trails_glued_iff, Bool.or_eq_true,
      Bool.and_eq_true, List.isEmpty_iff, or_comm]
  · have hspoken : (splitAt '/' (joinFragments fragments).toList).filter
        (fun s => s ≠ [] ∧ s ≠ ['.']) = spoken (joinFragments fragments).toList :=
      List.filter_congr fun s _ => by simp [countsWithin]
    rw [hspoken, hrooted, toList_joinFragments_eq, spoken_normalize, resolve_glued]

end Workyard.Path
