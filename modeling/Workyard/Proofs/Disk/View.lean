import Workyard.Proofs.Disk.Place

/-!
# Views

What stands at every location is all that can be told of a disk. Writing a file, taking one away
and moving one change the view at the places that they name and nowhere else.
-/

namespace Workyard

set_option autoImplicit false

namespace Disk

/-- What stands at every location. -/
abbrev View := Location → Option Node

namespace View

def set (v : View) (l : Location) (n : Option Node) : View :=
  fun m => if m = l then n else v m

/-- What stood at one location now stands at another one. -/
def move (v : View) (a b : Location) : View :=
  (v.set a none).set b (v a)

variable {v : View} {a b l m : Location} {n : Option Node}

@[simp] theorem set_self : v.set l n l = n := if_pos rfl

theorem set_of_ne (h : m ≠ l) : v.set l n m = v m := if_neg h

theorem set_apply : v.set l n m = if m = l then n else v m := rfl

theorem set_eq_self : v.set l (v l) = v := by
  funext m
  by_cases h : m = l
  · rw [h, set_self]
  · exact set_of_ne h

theorem set_set {n' : Option Node} : (v.set l n).set l n' = v.set l n' := by
  funext m
  simp only [set_apply]
  split <;> rfl

theorem move_target : v.move a b b = v a := set_self

theorem move_source (h : a ≠ b) : v.move a b a = none := by
  rw [move, set_of_ne h, set_self]

theorem move_of_ne (ha : m ≠ a) (hb : m ≠ b) : v.move a b m = v m := by
  rw [move, set_of_ne hb, set_of_ne ha]

theorem move_self : v.move a a = v := by
  funext m
  by_cases h : m = a
  · rw [h, move_target]
  · rw [move_of_ne h h]

end View

variable {d d' : Disk} {a b l m : Location} {p q : FilePath} {c : Content}

def view (d : Disk) : View := d.at?

theorem view_of_append (h : d.view (l ++ m) ≠ none) (hm : m ≠ []) :
    d.view l = some .directory :=
  at?_of_append h hm

/-- Nothing is below what is no directory. -/
theorem view_below (h : d.view l ≠ some .directory) (hlm : l <+: m) (hne : m ≠ l) :
    d.view m = none := by
  obtain ⟨t, rfl⟩ := hlm
  have ht : t ≠ [] := by rintro rfl; simp at hne
  exact Classical.byContradiction fun hn => h (view_of_append hn ht)

theorem find?_of_view {n : Node} (h : d.view l = some n) :
    ∃ e, d.root.find? l = some e ∧ e.node = n := by
  simpa [view, at?, Entry.at?] using h

theorem find?_of_view_file (h : d.view l = some (.file c)) : d.root.find? l = some (.file c) := by
  obtain ⟨e, he, hn⟩ := find?_of_view h
  cases e with
  | file c' => simpa [Entry.node, he] using hn
  | directory es => simp [Entry.node] at hn

theorem find?_of_view_directory (h : d.view l = some .directory) :
    ∃ es, d.root.find? l = some (.directory es) := by
  obtain ⟨e, he, hn⟩ := find?_of_view h
  cases e with
  | file c => simp [Entry.node] at hn
  | directory es => exact ⟨es, he⟩

theorem find?_of_view_none (h : d.view l = none) : d.root.find? l = none := by
  simpa [view, at?, Entry.at?] using h

/-- An entry with nothing in it, put where no directory was, changes nothing else. -/
theorem view_put {e : Entry} {n : String} (he : ∀ t, t ≠ [] → e.find? t = none)
    (hm : d.view m = some .directory) (hl : d.view (m ++ [n]) ≠ some .directory) :
    (d.put (m ++ [n]) e).view = d.view.set (m ++ [n]) (some e.node) := by
  funext l
  by_cases hpre : m ++ [n] <+: l
  · obtain ⟨t, rfl⟩ := hpre
    obtain ⟨es, hes⟩ := find?_of_view_directory hm
    have hput := @Entry.find?_put_append e d.root m n es hes t
    have hview : (d.put (m ++ [n]) e).view (m ++ [n] ++ t) = (e.find? t).map Entry.node := by
      simp [view, at?, Entry.at?, put, hput]
    rw [hview]
    by_cases ht : t = []
    · simp [ht]
    · have hne : m ++ [n] ++ t ≠ m ++ [n] := by simpa using ht
      rw [he t ht, View.set_of_ne hne, view_below hl ⟨t, rfl⟩ hne]
      rfl
  · have hne : l ≠ m ++ [n] := by
      rintro rfl
      exact hpre (List.prefix_refl _)
    rw [View.set_of_ne hne]
    exact Entry.at?_put_of_not_prefix hpre

theorem view_erase (hl : l ≠ []) (h : d.view l ≠ some .directory) :
    (d.erase l).view = d.view.set l none := by
  funext m
  by_cases hpre : l <+: m
  · have hnone : (d.erase l).view m = none := Entry.at?_erase_of_prefix hl hpre
    by_cases hm : m = l
    · rw [hnone, hm, View.set_self]
    · rw [hnone, View.set_of_ne hm, view_below h hpre hm]
  · have hne : m ≠ l := by
      rintro rfl
      exact hpre (List.prefix_refl _)
    rw [View.set_of_ne hne]
    exact Entry.at?_erase_of_not_prefix hpre

theorem file_find? (c : Content) (t : Location) (ht : t ≠ []) : (Entry.file c).find? t = none := by
  cases t with
  | nil => exact absurd rfl ht
  | cons n t => rfl

theorem directory_find? (t : Location) (ht : t ≠ []) : (Entry.directory []).find? t = none := by
  cases t with
  | nil => exact absurd rfl ht
  | cons n t => rfl

theorem writeFile_eq_ok_iff :
    d.writeFile p c = .ok d' ↔
      d.Reaches p ∧ d.view (d.place p) ≠ some .directory ∧ d' = d.put (d.place p) (.file c) := by
  unfold writeFile
  cases hl : d.locate p with
  | error f => simp [Reaches, hl]
  | ok l =>
    obtain rfl := locate_eq_ok hl
    simp only [Reaches, hl, true_and]
    cases hf : d.root.find? (d.place p) with
    | none => simp [view, at?, Entry.at?, hf, eq_comm]
    | some e => cases e <;> simp [view, at?, Entry.at?, hf, Entry.node, eq_comm]

theorem writeFile_of_reaches (hr : d.Reaches p) (hp : d.view (d.place p) ≠ some .directory)
    (c : Content) : d.writeFile p c = .ok (d.put (d.place p) (.file c)) :=
  writeFile_eq_ok_iff.mpr ⟨hr, hp, rfl⟩

theorem view_writeFile (h : d.writeFile p c = .ok d') :
    d'.here = d.here ∧ d'.view = d.view.set (d.place p) (some (.file c)) := by
  obtain ⟨hr, hdir, rfl⟩ := writeFile_eq_ok_iff.mp h
  obtain ⟨m, n, hp, hm⟩ := hr.eq_append hdir
  rw [hp] at hdir ⊢
  exact ⟨rfl, view_put (file_find? c) hm hdir⟩

theorem removeFile_eq_ok_iff :
    d.removeFile p = .ok d' ↔
      d.Reaches p ∧ (∃ c, d.view (d.place p) = some (.file c)) ∧ d' = d.erase (d.place p) := by
  unfold removeFile
  cases hl : d.locate p with
  | error f => simp [Reaches, hl]
  | ok l =>
    obtain rfl := locate_eq_ok hl
    simp only [Reaches, hl, true_and]
    cases hf : d.root.find? (d.place p) with
    | none => simp [view, at?, Entry.at?, hf]
    | some e => cases e <;> simp [view, at?, Entry.at?, hf, Entry.node, eq_comm]

theorem view_removeFile (h : d.removeFile p = .ok d') :
    d'.here = d.here ∧ d'.view = d.view.set (d.place p) none := by
  obtain ⟨hr, ⟨c, hc⟩, rfl⟩ := removeFile_eq_ok_iff.mp h
  have hdir : d.view (d.place p) ≠ some .directory := by simp [hc]
  obtain ⟨m, n, hp, hm⟩ := hr.eq_append hdir
  exact ⟨rfl, view_erase (by simp [hp]) hdir⟩

/-- A file moves onto a name in a directory where no directory is. -/
theorem view_move {n : String} (ha : d.view a = some (.file c)) (hm : d.view m = some .directory)
    (hb : d.view (m ++ [n]) ≠ some .directory) (ha' : a ≠ []) :
    ∃ d', d.move a (m ++ [n]) = .ok d' ∧ d'.here = d.here ∧
      d'.view = d.view.move a (m ++ [n]) := by
  have hfind := find?_of_view_file ha
  by_cases hab : a = m ++ [n]
  · refine ⟨d, ?_, rfl, by rw [hab, View.move_self]⟩
    rw [move, hfind]
    exact if_pos hab
  · have hdir : d.view a ≠ some .directory := by simp [ha]
    have hma : m ≠ a := by
      rintro rfl
      exact hdir hm
    have hpre : ¬ a <+: m ++ [n] := by
      intro h
      rcases List.prefix_concat_iff.mp h with h | h
      · exact hab h
      · simp [view_below hdir h hma] at hm
    have hpre' : ¬ m ++ [n] <+: a := by
      intro h
      simp [view_below hb h hab] at ha
    have herase := view_erase ha' hdir
    have hm' : (d.erase a).view m = some .directory := by rw [herase, View.set_of_ne hma, hm]
    have hb' : (d.erase a).view (m ++ [n]) ≠ some .directory := by
      rw [herase, View.set_of_ne (Ne.symm hab)]
      exact hb
    refine ⟨(d.erase a).put (m ++ [n]) (.file c), ?_, rfl, ?_⟩
    · rw [move, hfind]
      simp only [hab, if_false, List.isPrefixOf_iff_prefix, hpre, hpre']
      cases hf : d.root.find? (m ++ [n]) with
      | none => rfl
      | some e =>
        cases e with
        | file c' => rfl
        | directory es => simp [view, at?, Entry.at?, hf, Entry.node] at hb
    · rw [view_put (file_find? c) hm' hb', herase, View.move, ha]
      rfl

theorem move_target_file (ha : d.view a = some (.file c)) (h : d.move a b = .ok d') :
    d.view b ≠ some .directory := by
  intro hb
  obtain ⟨es, hes⟩ := find?_of_view_directory hb
  have hab : a ≠ b := by
    rintro rfl
    simp [ha] at hb
  unfold move at h
  simp only [find?_of_view_file ha, hes, hab, if_false] at h
  split at h
  · simp at h
  · split at h <;> simp at h

/-- A file, if there is one, may go from one path to another and back. -/
structure Movable (d : Disk) (p q : FilePath) : Prop where
  source : d.Reaches p
  target : d.Reaches q
  sourceSlash : p.endsInSlash = false
  targetSlash : q.endsInSlash = false
  sourceFile : d.view (d.place p) ≠ some .directory
  targetFile : d.view (d.place q) ≠ some .directory

theorem Movable.symm (h : d.Movable p q) : d.Movable q p where
  source := h.target
  target := h.source
  sourceSlash := h.targetSlash
  targetSlash := h.sourceSlash
  sourceFile := h.targetFile
  targetFile := h.sourceFile

theorem Movable.rename (h : d.Movable p q) (hp : d.view (d.place p) = some (.file c)) :
    ∃ d', d.rename p q = .ok d' ∧ d'.here = d.here ∧
      d'.view = d.view.move (d.place p) (d.place q) := by
  obtain ⟨m, n, hq, hm⟩ := h.target.eq_append h.targetFile
  obtain ⟨m', n', hp', _⟩ := h.source.eq_append h.sourceFile
  have hb := h.targetFile
  rw [hq] at hb ⊢
  obtain ⟨d', hmove, hrest⟩ := view_move hp hm hb (by simp [hp'])
  refine ⟨d', ?_, hrest⟩
  rw [Disk.rename, FilePath.trimSlash_of_endsInSlash h.sourceSlash,
    FilePath.trimSlash_of_endsInSlash h.targetSlash, h.source, h.target]
  simp [find?_of_view_file hp, h.sourceSlash, h.targetSlash, hq, hmove]

theorem rename_of_absent (hp : d.view (d.place p) = none) : ∃ f, d.rename p q = .error f := by
  unfold Disk.rename
  cases ha : d.locate p.trimSlash with
  | error f => exact ⟨f, rfl⟩
  | ok a =>
    cases hb : d.locate q.trimSlash with
    | error f => exact ⟨f, rfl⟩
    | ok b =>
      have hpa : a = d.place p := by rw [locate_eq_ok ha, place_trimSlash]
      simp [hpa, find?_of_view_none hp, move]

/-- What renaming what is no directory comes to, if it does not fail. -/
theorem rename_eq_ok (hp : d.view (d.place p) ≠ some .directory) (h : d.rename p q = .ok d') :
    d.Movable p q ∧ (∃ c, d.view (d.place p) = some (.file c)) ∧ d'.here = d.here ∧
      d'.view = d.view.move (d.place p) (d.place q) := by
  have hfile : ∃ c, d.view (d.place p) = some (.file c) := by
    cases hv : d.view (d.place p) with
    | none =>
      obtain ⟨f, hf⟩ := @rename_of_absent d p q hv
      simp [hf] at h
    | some n =>
      cases n with
      | file c => exact ⟨c, rfl⟩
      | directory => exact absurd hv hp
  obtain ⟨c, hc⟩ := hfile
  have hmovable : d.Movable p q := by
    unfold Disk.rename at h
    cases ha : d.locate p.trimSlash with
    | error f => simp [ha] at h
    | ok a =>
      cases hb : d.locate q.trimSlash with
      | error f => simp [ha, hb] at h
      | ok b =>
        obtain rfl : a = d.place p := by rw [locate_eq_ok ha, place_trimSlash]
        obtain rfl : b = d.place q := by rw [locate_eq_ok hb, place_trimSlash]
        simp only [ha, hb, find?_of_view_file hc] at h
        split at h
        · simp at h
        · rename_i hslash
          simp only [Bool.or_eq_true, not_or, Bool.not_eq_true] at hslash
          rw [FilePath.trimSlash_of_endsInSlash hslash.1] at ha
          rw [FilePath.trimSlash_of_endsInSlash hslash.2] at hb
          exact ⟨ha, hb, hslash.1, hslash.2, hp, move_target_file hc h⟩
  obtain ⟨d'', hd'', hrest⟩ := hmovable.rename hc
  obtain rfl : d' = d'' := by simpa [h] using hd''
  exact ⟨hmovable, ⟨c, hc⟩, hrest⟩

theorem readText_of_reaches (h : d.Reaches p) :
    d.readText p = match d.view (d.place p) with
      | none => .error .notFound
      | some .directory => .error .isADirectory
      | some (.file (.raw _)) => .error .notText
      | some (.file (.text s)) => .ok s := by
  unfold readText entry
  rw [h]
  cases hf : d.root.find? (d.place p) with
  | none => simp [view, at?, Entry.at?, hf]
  | some e =>
    cases e with
    | directory es => simp [view, at?, Entry.at?, hf, Entry.node]
    | file c => cases c <;> simp [view, at?, Entry.at?, hf, Entry.node]

theorem step_eq (d : Disk) (l : Location) (s : List Char) :
    d.step l s = match d.view l with
      | none => .error .notFound
      | some (.file _) => .error .notADirectory
      | some .directory => .ok (enterSegment l s) := by
  unfold step view at? Entry.at? enterSegment
  cases d.root.find? l with
  | none => rfl
  | some e =>
    cases e with
    | file c => rfl
    | directory es =>
      simp only [Option.map_some, Entry.node]
      split
      · rfl
      · split <;> rfl

theorem follow_congr (hv : d.view = d'.view) (l : Location) (ss : List (List Char)) :
    d.follow l ss = d'.follow l ss := by
  induction ss generalizing l with
  | nil => rfl
  | cons s ss ih => simp only [follow, step_eq, hv, ih]

theorem locate_congr (hh : d.here = d'.here) (hv : d.view = d'.view) (p : FilePath) :
    d.locate p = d'.locate p := by
  unfold locate
  rw [hh, follow_congr hv]

theorem reaches_congr (hh : d.here = d'.here) (hv : d.view = d'.view) (p : FilePath) :
    d.Reaches p ↔ d'.Reaches p := by
  unfold Reaches
  rw [locate_congr hh hv, place_congr hh]

/-- Two disks with one view read the same. -/
theorem readText_congr (hh : d.here = d'.here) (hv : d.view = d'.view) (p : FilePath) :
    d.readText p = d'.readText p := by
  by_cases h : d.Reaches p
  · have h' := (reaches_congr hh hv p).mp h
    rw [readText_of_reaches h, readText_of_reaches h', hv, place_congr hh]
  · -- What is not reached fails on the way, and so in both.
    have hlocate := locate_congr hh hv p
    unfold readText entry
    rw [← hlocate]
    cases hl : d.locate p with
    | ok l => exact absurd (reaches_of_locate hl) h
    | error f => rfl

theorem entry_eq_ok_iff {e : Entry} :
    d.entry p = .ok e ↔ d.Reaches p ∧ d.root.find? (d.place p) = some e := by
  unfold entry
  cases hl : d.locate p with
  | error f => simp [Reaches, hl]
  | ok l =>
    obtain rfl := locate_eq_ok hl
    simp only [Reaches, hl, true_and]
    cases d.root.find? (d.place p) <;> simp

theorem isDirectory_iff :
    d.isDirectory p = true ↔ d.Reaches p ∧ d.view (d.place p) = some .directory := by
  have hentry : d.isDirectory p = true ↔ ∃ es, d.entry p = .ok (.directory es) := by
    unfold isDirectory
    cases d.entry p with
    | error f => simp [Except.toOption]
    | ok e => cases e <;> simp [Except.toOption, Entry.isDirectory]
  simp only [hentry, entry_eq_ok_iff, exists_and_left]
  refine and_congr_right fun _ => ⟨?_, find?_of_view_directory⟩
  rintro ⟨es, hes⟩
  simp [view, at?, Entry.at?, hes, Entry.node]

theorem view_of_isFile (h : d.isFile p = true) :
    d.Reaches p ∧ ∃ c, d.view (d.place p) = some (.file c) := by
  unfold isFile entry at h
  cases hl : d.locate p with
  | error f => simp [hl, Except.toOption] at h
  | ok l =>
    obtain rfl := locate_eq_ok hl
    refine ⟨hl, ?_⟩
    cases hf : d.root.find? (d.place p) with
    | none => simp [hl, hf, Except.toOption] at h
    | some e =>
      cases e with
      | directory es => simp [hl, hf, Except.toOption, Entry.isDirectory] at h
      | file c => exact ⟨c, by simp [view, at?, Entry.at?, hf, Entry.node]⟩

/-- The disk without a file, if it can be taken away. -/
def without (d : Disk) (p : FilePath) : Disk :=
  (d.removeFile p).toOption.getD d

theorem view_without (hr : d.Reaches p) (hp : d.view (d.place p) ≠ some .directory) :
    (d.without p).here = d.here ∧ (d.without p).view = d.view.set (d.place p) none := by
  unfold without
  cases hrem : d.removeFile p with
  | ok d' => exact view_removeFile hrem
  | error f =>
    refine ⟨rfl, ?_⟩
    have hnone : d.view (d.place p) = none := by
      cases hv : d.view (d.place p) with
      | none => rfl
      | some n =>
        cases n with
        | directory => exact absurd hv hp
        | file c =>
          have := removeFile_eq_ok_iff.mpr ⟨hr, ⟨c, hv⟩, rfl⟩
          simp [hrem] at this
    rw [← hnone, View.set_eq_self]
    rfl

end Disk

end Workyard
