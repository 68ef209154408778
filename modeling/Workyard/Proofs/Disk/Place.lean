import Workyard.Disk.Basic
import Workyard.Proofs.Path.Segments

/-!
# Places

Nothing on a disk leads anywhere else, so the components of a path alone say which location it
means: the place of the path. The path is followed to its place just when the directories that
it leads through are there.
-/

namespace Workyard

set_option autoImplicit false

namespace FilePath

/-- The location that a component leads to from another one. -/
def Component.enter (l : Disk.Location) : Component → Disk.Location
  | root => []
  | current => l
  | parent => l.dropLast
  | name s => l ++ [s]

end FilePath

namespace Disk

open FilePath

/-- The location that a path means where the directories on its way are there. -/
def place (d : Disk) (p : FilePath) : Location :=
  p.components.foldl Component.enter d.here

/-- Where a path starts. -/
def start (d : Disk) (p : FilePath) : Location :=
  if p.isAbsolute then [] else d.here

/-- The location that a segment leads to from another one. -/
def enterSegment (l : Location) (segment : List Char) : Location :=
  if segment = [] ∨ segment = ['.'] then l
  else if segment = ['.', '.'] then l.dropLast
  else l ++ [String.ofList segment]

variable {d d' : Disk} {l l' : Location} {p q : FilePath}

theorem step_eq_ok_iff {s : List Char} :
    d.step l s = .ok l' ↔ d.at? l = some .directory ∧ l' = enterSegment l s := by
  unfold step at? Entry.at? enterSegment
  cases d.root.find? l with
  | none => simp
  | some e =>
    cases e with
    | file c => simp [Entry.node]
    | directory es =>
      simp only [Option.map_some, Entry.node, true_and]
      split
      · simp [eq_comm]
      · split <;> simp [eq_comm]

theorem follow_cons_eq_ok_iff {s : List Char} {ss : List (List Char)} :
    d.follow l (s :: ss) = .ok l' ↔
      d.at? l = some .directory ∧ d.follow (enterSegment l s) ss = .ok l' := by
  simp only [follow]
  cases hs : d.step l s with
  | ok m =>
    obtain ⟨hl, rfl⟩ := step_eq_ok_iff.mp hs
    simp [hl]
  | error f =>
    have hn : ¬ d.at? l = some .directory := fun hl => by
      have : d.step l s = .ok (enterSegment l s) := step_eq_ok_iff.mpr ⟨hl, rfl⟩
      simp [hs] at this
    simp [hn]

theorem follow_append_eq_ok_iff {ss ts : List (List Char)} :
    d.follow l (ss ++ ts) = .ok l' ↔ ∃ m, d.follow l ss = .ok m ∧ d.follow m ts = .ok l' := by
  induction ss generalizing l with
  | nil => simp [follow]
  | cons s ss ih => simp only [List.cons_append, follow_cons_eq_ok_iff, ih]; grind

theorem follow_eq_ok {ss : List (List Char)} (h : d.follow l ss = .ok l') :
    l' = ss.foldl enterSegment l := by
  induction ss generalizing l with
  | nil => simpa [follow, eq_comm] using h
  | cons s ss ih => exact ih (follow_cons_eq_ok_iff.mp h).2

theorem follow_mono (hd : ∀ l, d.at? l = some .directory → d'.at? l = some .directory)
    {ss : List (List Char)} (h : d.follow l ss = .ok l') : d'.follow l ss = .ok l' := by
  induction ss generalizing l with
  | nil => exact h
  | cons s ss ih =>
    obtain ⟨hl, hs⟩ := follow_cons_eq_ok_iff.mp h
    exact follow_cons_eq_ok_iff.mpr ⟨hd l hl, ih hs⟩

/-- A segment that says nothing does not lead anywhere else, and one that does leads where
its component does. -/
theorem foldl_enterSegment {ss : List Segment}
    (h : ∀ s ∈ ss, s.counts = false → s.text = [] ∨ s.text = ['.'])
    (h' : ∀ s ∈ ss, s.counts = true → s.text ≠ []) :
    (ss.map (·.text)).foldl enterSegment l =
      ((ss.filter (·.counts)).map fun s => componentOf s.text).foldl Component.enter l := by
  induction ss generalizing l with
  | nil => rfl
  | cons s ss ih =>
    have ih := @ih (enterSegment l s.text) (fun s hs => h s (List.mem_cons_of_mem _ hs))
      (fun s hs => h' s (List.mem_cons_of_mem _ hs))
    by_cases hc : s.counts
    · have hne := h' s List.mem_cons_self hc
      have he : (componentOf s.text).enter l = enterSegment l s.text := by
        unfold componentOf enterSegment
        split
        · simp_all [Component.enter]
        · split <;> simp_all [Component.enter]
      simp [hc, ih, he]
    · have ht := h s List.mem_cons_self (by simpa using hc)
      have he : enterSegment l s.text = l := if_pos ht
      rw [he] at ih
      simp [hc, ih, he]

theorem place_eq_foldl (d : Disk) (p : FilePath) :
    d.place p = (p.segments.map (·.text)).foldl enterSegment (d.start p) := by
  rw [foldl_enterSegment (fun s hs => (counts_segments hs).1) fun s hs => (counts_segments hs).2]
  unfold place FilePath.components start
  split <;> simp [Component.enter]

theorem foldl_enterSegment_slashes {cs : List Char} (h : ∀ c ∈ cs, c = '/') :
    (Text.splitAt '/' cs).foldl enterSegment l = l := by
  induction cs with
  | nil => rfl
  | cons c cs ih =>
    have hc : c = '/' := h c List.mem_cons_self
    simpa [Text.splitAt, hc, enterSegment] using ih fun c hc => h c (List.mem_cons_of_mem _ hc)

theorem foldl_enterSegment_append {cs ds : List Char} (h : ∀ c ∈ ds, c = '/') :
    (Text.splitAt '/' (cs ++ ds)).foldl enterSegment l =
      (Text.splitAt '/' cs).foldl enterSegment l := by
  cases ds with
  | nil => simp
  | cons c ds =>
    have hc : c = '/' := h c List.mem_cons_self
    rw [hc, Text.splitAt_append_cons, List.foldl_append]
    exact foldl_enterSegment_slashes fun c hc => h c (List.mem_cons_of_mem _ hc)

/-- Slashes at the end of a path say nothing about its place. -/
theorem place_trimSlash (d : Disk) (p : FilePath) : d.place p.trimSlash = d.place p := by
  obtain ⟨kept, slashes, htext, hslashes, htrim⟩ := text_eq_kept_append p
  rw [htrim, place_eq_foldl, place_eq_foldl, segments_text, segments_text, htext,
    foldl_enterSegment_append hslashes]
  cases kept with
  | cons c cs =>
    have hstart : d.start ⟨String.ofList (c :: cs)⟩ = d.start p := by
      simp [start, isAbsolute, htext]
    simp only [List.isEmpty_cons, Bool.false_and, Bool.false_eq_true, if_false, hstart,
      String.toList_ofList]
  | nil =>
    cases slashes with
    | nil =>
      simp [start, isAbsolute, htext]
    | cons c cs =>
      have hc : c = '/' := hslashes c List.mem_cons_self
      simp [start, isAbsolute, htext, hc, Text.splitAt, enterSegment]

theorem locate_eq_ok_iff :
    d.locate p = .ok l ↔
      p.text ≠ "" ∧ d.follow (d.start p) (p.segments.map (·.text)) = .ok l := by
  unfold locate start
  by_cases hp : p.text = "" <;> simp [hp]

theorem locate_eq_ok (h : d.locate p = .ok l) : l = d.place p := by
  rw [place_eq_foldl]
  exact follow_eq_ok (locate_eq_ok_iff.mp h).2

/-- Every directory that a path leads through is there. -/
def Reaches (d : Disk) (p : FilePath) : Prop :=
  d.locate p = .ok (d.place p)

theorem reaches_of_locate (h : d.locate p = .ok l) : d.Reaches p := by
  rw [Reaches, h, ← locate_eq_ok h]

theorem place_congr (h : d.here = d'.here) (p : FilePath) : d.place p = d'.place p := by
  unfold place
  rw [h]

theorem place_of_same (d : Disk) (h : p.same q = true) : d.place p = d.place q := by
  unfold place
  rw [same_iff.mp h]

theorem Reaches.mono (hh : d.here = d'.here)
    (hd : ∀ l, d.at? l = some .directory → d'.at? l = some .directory) (h : d.Reaches p) :
    d'.Reaches p := by
  obtain ⟨hp, hf⟩ := locate_eq_ok_iff.mp h
  have hs : d.start p = d'.start p := by unfold start; rw [hh]
  rw [hs] at hf
  exact reaches_of_locate (locate_eq_ok_iff.mpr ⟨hp, follow_mono hd hf⟩)

/-- The directory in which the last segment of a path is looked up. -/
def above (d : Disk) (p : FilePath) : Location :=
  p.leading.foldl enterSegment (d.start p)

theorem place_eq_enterSegment (d : Disk) (p : FilePath) :
    d.place p = enterSegment (d.above p) p.lastSegment := by
  rw [place_eq_foldl, ← leading_append_lastSegment, List.foldl_append]
  rfl

/-- A path is reached when the segments before its last one lead to a directory. -/
theorem reaches_iff :
    d.Reaches p ↔ p.text ≠ "" ∧ d.follow (d.start p) p.leading = .ok (d.above p) ∧
      d.at? (d.above p) = some .directory := by
  unfold Reaches
  rw [locate_eq_ok_iff, ← leading_append_lastSegment, follow_append_eq_ok_iff]
  constructor
  · rintro ⟨hp, m, hm, hl⟩
    obtain ⟨hdir, _⟩ := follow_cons_eq_ok_iff.mp hl
    obtain rfl := follow_eq_ok hm
    exact ⟨hp, hm, hdir⟩
  · rintro ⟨hp, hm, hdir⟩
    refine ⟨hp, _, hm, follow_cons_eq_ok_iff.mpr ⟨hdir, ?_⟩⟩
    rw [place_eq_enterSegment]
    rfl

theorem above_extended {ending : String} (hp : p.text ≠ "") (h : '/' ∉ ending.toList) :
    d.above (p.extended ending) = d.above p := by
  simp [above, start, isAbsolute_extended hp, leading_extended h]

/-- A path that goes on in the name of its last segment is reached with that path. -/
theorem reaches_extended_iff {ending : String} (hp : p.text ≠ "") (h : '/' ∉ ending.toList) :
    d.Reaches (p.extended ending) ↔ d.Reaches p := by
  have hne : (p.extended ending).text ≠ "" := by simp [extended, hp]
  have hstart : d.start (p.extended ending) = d.start p := by
    simp [start, isAbsolute_extended hp]
  rw [reaches_iff, reaches_iff, hstart, above_extended hp h, leading_extended h]
  simp [hp, hne]

/-- A directory that is found there leads to directories above it. -/
theorem at?_of_append {m : Location} (h : d.at? (l ++ m) ≠ none) (hm : m ≠ []) :
    d.at? l = some .directory := by
  unfold at? Entry.at? at *
  rw [Entry.find?_append] at h
  cases hl : d.root.find? l with
  | none => simp [hl] at h
  | some e =>
    cases e with
    | directory es => rfl
    | file c =>
      cases m with
      | nil => exact absurd rfl hm
      | cons n m => simp [hl, Entry.find?] at h

theorem at?_dropLast (h : d.at? l = some .directory) : d.at? l.dropLast = some .directory := by
  by_cases hl : l = []
  · simpa [hl] using h
  · apply at?_of_append (m := [l.getLast hl]) _ (by simp)
    rw [List.dropLast_concat_getLast]
    simp [h]

theorem place_of_endsInName (h : p.EndsInName) :
    d.place p = d.above p ++ [String.ofList p.lastSegment] := by
  rw [place_eq_enterSegment, enterSegment, if_neg (by simp [h.1, h.2.1]), if_neg h.2.2]

theorem Reaches.endsInName (h : d.Reaches p) (hp : d.at? (d.place p) ≠ some .directory) :
    p.EndsInName := by
  obtain ⟨_, _, hdir⟩ := reaches_iff.mp h
  rw [place_eq_enterSegment] at hp
  unfold enterSegment at hp
  split at hp
  · exact absurd hdir hp
  · split at hp
    · exact absurd (at?_dropLast hdir) hp
    · rename_i h₁ h₂
      exact ⟨fun h => h₁ (.inl h), fun h => h₁ (.inr h), h₂⟩

/-- What is no directory lies in one, under a name of its own. -/
theorem Reaches.eq_append (h : d.Reaches p) (hp : d.at? (d.place p) ≠ some .directory) :
    ∃ m n, d.place p = m ++ [n] ∧ d.at? m = some .directory :=
  ⟨d.above p, _, place_of_endsInName (h.endsInName hp), (reaches_iff.mp h).2.2⟩

theorem makeDirectories_of_directory (h : q.text = "" ∨ ∃ l, d.locate q = .ok l ∧
    d.at? l = some .directory) : d.makeDirectories q = (d, none) := by
  unfold makeDirectories makeAll
  rcases h with h | ⟨l, hl, hd⟩
  · simp [h]
  · have hq : q.text ≠ "" := (locate_eq_ok_iff.mp hl).1
    unfold at? Entry.at? at hd
    cases hf : d.root.find? l with
    | none => simp [hf] at hd
    | some e =>
      have hmake : d.makeDirectory q = .error .alreadyExists := by simp [makeDirectory, hl, hf]
      have hdir : d.isDirectory q = true := by
        cases e with
        | file c => simp [hf, Entry.node] at hd
        | directory es => simp [isDirectory, entry, hl, hf, Except.toOption, Entry.isDirectory]
      simp [hq, hmake, hdir]

/-- The parent of a path that is reached is there. -/
theorem makeDirectories_parent (h : d.Reaches p) (hq : p.parent? = some q) :
    d.makeDirectories q = (d, none) := by
  apply makeDirectories_of_directory
  obtain ⟨before, after, hseg, hafter, rfl, hlast⟩ := parent?_eq_some hq
  obtain ⟨hp, hf⟩ := locate_eq_ok_iff.mp h
  rw [hseg, List.map_append, follow_append_eq_ok_iff] at hf
  obtain ⟨m, hm, hrest⟩ := hf
  have hdir : d.at? m = some .directory := by
    obtain ⟨s, ss, rfl⟩ := List.exists_cons_of_ne_nil hafter
    exact (follow_cons_eq_ok_iff.mp hrest).1
  by_cases hb : before = []
  · subst hb
    cases ha : p.isAbsolute with
    | false => exact .inl (by simp [ofSegments, Text.joinWith])
    | true =>
      have hroot : m = [] := by simpa [follow, start, ha, eq_comm] using hm
      subst hroot
      have htop : d.follow [] [[], []] = .ok [] :=
        follow_cons_eq_ok_iff.mpr ⟨hdir, follow_cons_eq_ok_iff.mpr ⟨hdir, rfl⟩⟩
      exact .inr ⟨[], locate_eq_ok_iff.mpr ⟨by decide, htop⟩, hdir⟩
  · obtain ⟨ht, htext, habs⟩ := ofSegments_before hseg hb hlast
    refine .inr ⟨m, locate_eq_ok_iff.mpr ⟨ht, ?_⟩, hdir⟩
    rw [segments_text, htext]
    simpa [start, habs] using hm

/-- A name that is joined to a path is looked up where the path leads. -/
theorem place_child {name : String} (h : IsName name) (d : Disk) (q : FilePath) :
    d.place (q.child name) = d.place q ++ [name] := by
  have hstart : d.start (q.child name) = d.start q := by
    simp [start, isAbsolute_child h]
  have habove : d.above (q.child name) = d.place q := by
    rw [place_eq_foldl, segments_text]
    unfold above leading
    rw [hstart]
    rcases text_child h q with ⟨hq, htext⟩ | ⟨cs, hq, htext, hcs⟩
    · simp [htext, hq, Text.splitAt, Text.splitAt_of_not_mem h.1, enterSegment]
    · rw [htext, Text.splitAt_append_cons, Text.splitAt_of_not_mem h.1, List.dropLast_concat]
      rcases hcs with hcs | hcs <;> rw [hcs]
      exact (foldl_enterSegment_append (by simp)).symm
  rw [place_of_endsInName (endsInName_child h q), lastSegment_child h, habove, String.ofList_toList]

theorem foldl_enterSegment_of_quiet {ss : List (List Char)} (h : ∀ s ∈ ss, s = [] ∨ s = ['.']) :
    ss.foldl enterSegment l = l := by
  induction ss with
  | nil => rfl
  | cons s ss ih =>
    rw [List.foldl_cons, enterSegment, if_pos (h s List.mem_cons_self)]
    exact ih fun s hs => h s (List.mem_cons_of_mem _ hs)

/-- The parent of a path that ends in a name leads where that is looked up. -/
theorem place_parent (h : p.EndsInName) (hq : p.parent? = some q) : d.place q = d.above p := by
  rw [parent?_of_endsInName h, Option.some_inj] at hq
  subst hq
  obtain ⟨trimmed, hsegments, htrimmed, hlast⟩ := trimEnd_append (segmentsOf p.leading)
  have hleading := congrArg (List.map (·.text)) hsegments
  rw [segmentsOf_text, List.map_append] at hleading
  have hwhole := segments_of_endsInName h
  rw [hsegments, List.append_assoc] at hwhole
  generalize trimEnd (segmentsOf p.leading) = kept at *
  have habove : d.above p = (kept.map (·.text)).foldl enterSegment (d.start p) := by
    rw [above, hleading, List.foldl_append, foldl_enterSegment_of_quiet]
    intro t ht
    obtain ⟨s, hs, rfl⟩ := List.mem_map.mp ht
    have hmem : s ∈ p.segments := by
      rw [hwhole]
      simp [hs]
    exact (counts_segments hmem).1 (htrimmed s hs)
  rw [habove, place_eq_foldl, segments_text]
  by_cases hkept : kept = []
  · subst hkept
    cases ha : p.isAbsolute with
    | false =>
      rw [show d.start p = d.here by simp [start, ha]]
      simp [ofSegments, Text.joinWith, Text.splitAt, start, isAbsolute, enterSegment]
    | true =>
      rw [show d.start p = [] by simp [start, ha]]
      simp [ofSegments, Text.joinWith, Text.splitAt, start, isAbsolute, enterSegment]
  · obtain ⟨_, htext, habs⟩ := ofSegments_before hwhole hkept hlast
    rw [htext]
    simp [start, habs]

/-- A path with another name is looked up beside the one it was made from. -/
theorem place_withFileName {name : String} (h : p.EndsInName) (hn : IsName name) (d : Disk) :
    d.place (p.withFileName name) = d.above p ++ [name] := by
  obtain ⟨q, hq⟩ : ∃ q, p.parent? = some q := ⟨_, parent?_of_endsInName h⟩
  unfold withFileName
  rw [fileName?_of_endsInName h, hq]
  simp only [Option.isSome_some, if_true, Option.getD_some]
  rw [place_child hn, place_parent h hq]

end Disk

end Workyard
