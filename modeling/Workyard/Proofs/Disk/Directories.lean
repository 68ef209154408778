import Workyard.Proofs.Disk.View

/-!
# Directories

Which paths are reached depends on the directories of a disk alone. Operations on files keep
them; making a directory adds some where nothing was, at its path and above.
-/

namespace Workyard

set_option autoImplicit false

/-- A path is above another one: its parent, the parent of that, and so on. -/
inductive FilePath.IsAbove : FilePath → FilePath → Prop where
  | parent {p q : FilePath} : p.parent? = some q → IsAbove q p
  | further {p q r : FilePath} : p.parent? = some q → IsAbove r q → IsAbove r p

namespace Disk

variable {d d' : Disk} {a b l m : Location} {p q : FilePath}

/-- Two disks with the same directories. -/
structure SameDirectories (d d' : Disk) : Prop where
  here : d.here = d'.here
  directory : ∀ l, d.view l = some .directory ↔ d'.view l = some .directory

namespace SameDirectories

theorem refl (d : Disk) : SameDirectories d d := ⟨rfl, fun _ => Iff.rfl⟩

theorem symm (h : SameDirectories d d') : SameDirectories d' d :=
  ⟨h.here.symm, fun l => (h.directory l).symm⟩

theorem trans {d'' : Disk} (h : SameDirectories d d') (h' : SameDirectories d' d'') :
    SameDirectories d d'' :=
  ⟨h.here.trans h'.here, fun l => (h.directory l).trans (h'.directory l)⟩

theorem place (h : SameDirectories d d') (p : FilePath) : d.place p = d'.place p :=
  place_congr h.here p

theorem reaches (h : SameDirectories d d') (hp : d.Reaches p) : d'.Reaches p :=
  hp.mono h.here fun l => (h.directory l).mp

theorem view_ne (h : SameDirectories d d') (hl : d.view l ≠ some .directory) :
    d'.view l ≠ some .directory :=
  fun h' => hl ((h.directory l).mpr h')

theorem movable (h : SameDirectories d d') (hm : d.Movable p q) : d'.Movable p q where
  source := h.reaches hm.source
  target := h.reaches hm.target
  sourceSlash := hm.sourceSlash
  targetSlash := hm.targetSlash
  sourceFile := h.place p ▸ h.view_ne hm.sourceFile
  targetFile := h.place q ▸ h.view_ne hm.targetFile

theorem of_set {n : Option Node} (hh : d'.here = d.here) (hv : d'.view = d.view.set l n)
    (hl : d.view l ≠ some .directory) (hn : n ≠ some .directory) : SameDirectories d d' := by
  refine ⟨hh.symm, fun m => ?_⟩
  rw [hv, View.set_apply]
  split
  · rename_i hm
    subst m
    exact iff_of_false hl hn
  · exact Iff.rfl

theorem of_move (hh : d'.here = d.here) (hv : d'.view = d.view.move a b)
    (ha : d.view a ≠ some .directory) (hb : d.view b ≠ some .directory) : SameDirectories d d' := by
  refine ⟨hh.symm, fun m => ?_⟩
  rw [hv, View.move, View.set_apply, View.set_apply]
  split
  · rename_i hm
    subst m
    exact iff_of_false hb ha
  · split
    · rename_i hm
      subst m
      exact iff_of_false ha (by simp)
    · exact Iff.rfl

end SameDirectories

/-- Two disks with the same directories and with the same files but for some locations. -/
structure AgreesOff (off : List Location) (d d' : Disk) : Prop where
  directories : SameDirectories d d'
  view : ∀ l, l ∉ off → d'.view l = d.view l

namespace AgreesOff

variable {off off' : List Location}

theorem refl (off : List Location) (d : Disk) : AgreesOff off d d :=
  ⟨.refl d, fun _ _ => rfl⟩

theorem mono (h : AgreesOff off d d') (hoff : ∀ l ∈ off, l ∈ off') : AgreesOff off' d d' :=
  ⟨h.directories, fun l hl => h.view l fun hm => hl (hoff l hm)⟩

theorem of_set {d'' : Disk} {n : Option Node} (h : AgreesOff off d d') (hh : d''.here = d'.here)
    (hv : d''.view = d'.view.set l n) (hl : d.view l ≠ some .directory)
    (hn : n ≠ some .directory) : AgreesOff (l :: off) d d'' := by
  refine ⟨h.directories.trans (.of_set hh hv (h.directories.view_ne hl) hn), fun m hm => ?_⟩
  simp only [List.mem_cons, not_or] at hm
  rw [hv, View.set_of_ne hm.1, h.view m hm.2]

end AgreesOff

/-- What was there keeps its kind, and but for the locations in `off` nothing else has changed
than that directories were made where nothing was, at locations of which `made` holds. -/
structure Grows (off : List Location) (made : Location → Prop) (d d' : Disk) : Prop where
  here : d'.here = d.here
  kind : ∀ l n, d.view l = some n → ∃ n', d'.view l = some n' ∧ (n' = .directory ↔ n = .directory)
  view : ∀ l, l ∉ off →
    d'.view l = d.view l ∨ d.view l = none ∧ d'.view l = some .directory ∧ made l

namespace Grows

variable {off off' : List Location} {made made' : Location → Prop} {d'' : Disk}

theorem refl (off : List Location) (made : Location → Prop) (d : Disk) : Grows off made d d :=
  ⟨rfl, fun _ n hn => ⟨n, hn, Iff.rfl⟩, fun _ _ => .inl rfl⟩

theorem trans (h : Grows off made d d') (h' : Grows off made d' d'') : Grows off made d d'' := by
  refine ⟨h'.here.trans h.here, fun l n hn => ?_, fun l hl => ?_⟩
  · obtain ⟨n', hn', hkind⟩ := h.kind l n hn
    obtain ⟨n'', hn'', hkind'⟩ := h'.kind l n' hn'
    exact ⟨n'', hn'', hkind'.trans hkind⟩
  · rcases h.view l hl with hv | ⟨hn, hd, hm⟩ <;> rcases h'.view l hl with hv' | ⟨hn', hd', hm'⟩
    · exact .inl (hv'.trans hv)
    · exact .inr ⟨hv ▸ hn', hd', hm'⟩
    · exact .inr ⟨hn, hv'.trans hd, hm⟩
    · exact .inr ⟨hn, hd', hm⟩

theorem mono (h : Grows off made d d') (hoff : ∀ l ∈ off, l ∈ off')
    (hm : ∀ l, made l → made' l) : Grows off' made' d d' :=
  ⟨h.here, h.kind, fun l hl => (h.view l fun hmem => hl (hoff l hmem)).imp_right
    fun ⟨hn, hd, hmade⟩ => ⟨hn, hd, hm l hmade⟩⟩

theorem directory (h : Grows off made d d') (hl : d.view l = some .directory) :
    d'.view l = some .directory := by
  obtain ⟨n, hn, hkind⟩ := h.kind l _ hl
  rw [hn, hkind.mpr rfl]

theorem file {c : Content} (h : Grows off made d d') (hl : d.view l = some (.file c)) :
    ∃ c', d'.view l = some (.file c') := by
  obtain ⟨n, hn, hkind⟩ := h.kind l _ hl
  cases n with
  | file c' => exact ⟨c', hn⟩
  | directory => exact absurd (hkind.mp rfl) (by simp)

theorem view_file {c : Content} (h : Grows off made d d') (hoff : l ∉ off)
    (hl : d.view l = some (.file c)) : d'.view l = some (.file c) := by
  rcases h.view l hoff with hv | ⟨hn, _⟩
  · rw [hv, hl]
  · simp [hl] at hn

theorem place (h : Grows off made d d') (p : FilePath) : d.place p = d'.place p :=
  place_congr h.here.symm p

theorem reaches (h : Grows off made d d') (hp : d.Reaches p) : d'.Reaches p :=
  hp.mono h.here.symm fun _ => h.directory

end Grows

/-- Setting what was no directory to a file, or what was nothing to a directory, is growth. -/
theorem grows_of_set {n : Node} {off : List Location} {made : Location → Prop}
    (hh : d'.here = d.here) (hv : d'.view = d.view.set l (some n))
    (hkind : ∀ n', d.view l = some n' → (n = .directory ↔ n' = .directory))
    (hl : l ∉ off → d.view l = none ∧ n = .directory ∧ made l) : Grows off made d d' := by
  refine ⟨hh, fun m n' hn' => ?_, fun m hm => ?_⟩
  · by_cases hml : m = l
    · subst m
      exact ⟨n, by rw [hv, View.set_self], hkind n' hn'⟩
    · exact ⟨n', by rw [hv, View.set_of_ne hml, hn'], Iff.rfl⟩
  · by_cases hml : m = l
    · subst m
      obtain ⟨hnone, rfl, hmade⟩ := hl hm
      exact .inr ⟨hnone, by rw [hv, View.set_self], hmade⟩
    · exact .inl (by rw [hv, View.set_of_ne hml])

theorem makeDirectory_eq_ok (h : d.makeDirectory p = .ok d') :
    Grows [] (· = d.place p) d d' := by
  unfold makeDirectory at h
  cases hl : d.locate p with
  | error f => simp [hl] at h
  | ok l =>
    obtain rfl := locate_eq_ok hl
    simp only [hl] at h
    cases hf : d.root.find? (d.place p) with
    | some e => simp [hf] at h
    | none =>
      obtain rfl : d.put (d.place p) (.directory []) = d' := by simpa [hf] using h
      have hnone : d.view (d.place p) = none := by simp [view, at?, Entry.at?, hf]
      have hr : d.Reaches p := hl
      obtain ⟨m, n, hp, hm⟩ := hr.eq_append (by rw [← view, hnone]; simp)
      rw [hp] at hnone ⊢
      have hview := view_put directory_find? hm (by simp [hnone] : d.view (m ++ [n]) ≠ _)
      exact grows_of_set rfl hview (by simp [hnone]) fun _ => ⟨hnone, rfl, rfl⟩

theorem grows_makeOrKeep (d : Disk) (p : FilePath) :
    Grows [] (· = d.place p) d (d.makeOrKeep p).1 := by
  unfold makeOrKeep
  cases h : d.makeDirectory p with
  | ok d' => exact makeDirectory_eq_ok h
  | error f => exact .refl [] _ d

/-- Directories are made at the path and above it only. -/
theorem grows_makeAll (fuel : Nat) (p : FilePath) (d : Disk) :
    Grows [] (fun l => ∃ r, (r = p ∨ r.IsAbove p) ∧ l = d.place r) d (makeAll fuel p d).1 := by
  have habove {p q : FilePath} {d d' : Disk} (hq : p.parent? = some q)
      (h : Grows [] (fun l => ∃ r, (r = q ∨ r.IsAbove q) ∧ l = d.place r) d d') :
      Grows [] (fun l => ∃ r, (r = p ∨ r.IsAbove p) ∧ l = d.place r) d d' := by
    refine h.mono (fun _ hl => hl) fun l ⟨r, hr, hl⟩ => ⟨r, .inr ?_, hl⟩
    rcases hr with rfl | hr
    · exact .parent hq
    · exact .further hq hr
  fun_induction makeAll fuel p d with
  | case1 | case2 | case4 | case7 => exact .refl [] _ _
  | case3 fuel p d _ d' h =>
    exact (makeDirectory_eq_ok h).mono (fun _ hl => hl) fun l hl => ⟨p, .inl rfl, hl⟩
  | case5 fuel p d _ _ q hq d' f h ih =>
    rw [h] at ih
    exact habove hq ih
  | case6 fuel p d _ _ q hq d' h ih =>
    rw [h] at ih
    exact (habove hq ih).trans ((grows_makeOrKeep d' p).mono (fun _ hl => hl) fun l hl =>
      ⟨p, .inl rfl, hl.trans (place_congr ih.here p)⟩)

end Disk

end Workyard
