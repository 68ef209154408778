import Mathlib.Data.List.Nodup
import Workyard.Proofs.Disk.View

/-!
# Walks

Where the entries of every directory have names and no two of them have the same one, a walk
lists what stands at each location that it may enter, and lists it once. So what it finds does
not depend on the order of the listings.
-/

namespace Workyard.Disk

set_option autoImplicit false

namespace Listing

theorem get?_eq_some_iff {es : Listing} (h : (es.map Prod.fst).Nodup) {name : String} {e : Entry} :
    get? name es = some e ↔ (name, e) ∈ es := by
  induction es with
  | nil => simp [get?]
  | cons m es ih =>
    obtain ⟨n, e'⟩ := m
    obtain ⟨hn, hes⟩ := List.nodup_cons.mp h
    by_cases hname : n = name
    · subst hname
      have habsent : (n, e) ∉ es := fun hm => hn (List.mem_map.mpr ⟨_, hm, rfl⟩)
      simp [get?, habsent, eq_comm]
    · simp [get?, hname, Ne.symm hname, ih hes]

end Listing

namespace Entry

/-- The entries of every directory in the tree have names, no two of them the same one. -/
inductive WellNamed : Entry → Prop where
  | file (content : Content) : WellNamed (.file content)
  | directory {es : Listing} (names : ∀ m ∈ es, FilePath.IsName m.1)
      (distinct : (es.map Prod.fst).Nodup) (below : ∀ m ∈ es, WellNamed m.2) :
      WellNamed (.directory es)

variable {enter : String → Bool} {e : Entry} {es : Listing} {l : Location} {n : Node}

@[simp] theorem at?_nil (e : Entry) : e.at? [] = some e.node := by
  simp [at?]

theorem at?_cons (name : String) (l : Location) (es : Listing) :
    (directory es).at? (name :: l) = (Listing.get? name es).bind (at? l) := by
  unfold at?
  rw [find?_cons]
  cases Listing.get? name es <;> rfl

/-- What a walk lists for an entry of a directory. -/
def walkEntry (enter : String → Bool) (m : String × Entry) : List (Location × Node) :=
  if enter m.1 then
    ([m.1], m.2.node) :: (m.2.walk enter).map fun below => (m.1 :: below.1, below.2)
  else []

theorem walk_directory (enter : String → Bool) (es : Listing) :
    (directory es).walk enter = es.flatMap (walkEntry enter) := by
  rw [walk]
  induction es with
  | nil => rfl
  | cons m es ih => rw [walkAll, ih, List.flatMap_cons, walkEntry]

theorem mem_walkEntry {m : String × Entry} :
    (l, n) ∈ walkEntry enter m ↔ enter m.1 = true ∧
      ∃ l', l = m.1 :: l' ∧ (l' = [] ∧ n = m.2.node ∨ (l', n) ∈ m.2.walk enter) := by
  unfold walkEntry
  by_cases h : enter m.1 = true
  · simp only [h, if_true, List.mem_cons, List.mem_map, Prod.mk.injEq, Prod.exists, true_and]
    constructor
    · rintro (⟨rfl, rfl⟩ | ⟨l', n', hl', rfl, rfl⟩)
      · exact ⟨[], rfl, .inl ⟨rfl, rfl⟩⟩
      · exact ⟨l', rfl, .inr hl'⟩
    · rintro ⟨l', rfl, ⟨rfl, rfl⟩ | hl'⟩
      · exact .inl ⟨rfl, rfl⟩
      · exact .inr ⟨l', n, hl', rfl, rfl⟩
  · simp [h]

/-- A walk lists what stands at every location whose names it may enter. -/
theorem mem_walk (he : e.WellNamed) :
    (l, n) ∈ e.walk enter ↔ l ≠ [] ∧ e.at? l = some n ∧ ∀ name ∈ l, enter name = true := by
  induction he generalizing l with
  | file content =>
    cases l with
    | nil => simp [walk]
    | cons name l => simp [walk, at?, find?]
  | @directory es _ distinct _ ih =>
    rw [walk_directory, List.mem_flatMap]
    constructor
    · rintro ⟨⟨name, e⟩, hm, hl⟩
      obtain ⟨henter, l', rfl, hl'⟩ := mem_walkEntry.mp hl
      rw [at?_cons, (Listing.get?_eq_some_iff distinct).mpr hm, List.forall_mem_cons]
      rcases hl' with ⟨rfl, rfl⟩ | hl'
      · simp [henter]
      · obtain ⟨_, hat, hnames⟩ := (ih _ hm).mp hl'
        exact ⟨by simp, hat, henter, hnames⟩
    · rintro ⟨hl, hat, hnames⟩
      obtain ⟨name, l', rfl⟩ := List.exists_cons_of_ne_nil hl
      obtain ⟨henter, hnames⟩ := List.forall_mem_cons.mp hnames
      rw [at?_cons, Option.bind_eq_some_iff] at hat
      obtain ⟨e, hget, hat⟩ := hat
      have hm := (Listing.get?_eq_some_iff distinct).mp hget
      refine ⟨(name, e), hm, mem_walkEntry.mpr ⟨henter, l', rfl, ?_⟩⟩
      by_cases hl' : l' = []
      · subst hl'
        exact .inl ⟨rfl, by simpa [eq_comm] using hat⟩
      · exact .inr ((ih _ hm).mpr ⟨hl', hat, hnames⟩)

theorem nodup_walkEntry {m : String × Entry} (hm : m.2.WellNamed)
    (h : ((m.2.walk enter).map Prod.fst).Nodup) : ((walkEntry enter m).map Prod.fst).Nodup := by
  unfold walkEntry
  by_cases henter : enter m.1 = true
  · rw [if_pos henter, List.map_cons, List.map_map, List.nodup_cons]
    constructor
    · intro hmem
      obtain ⟨⟨l, n⟩, hl, heq⟩ := List.mem_map.mp hmem
      have hne := ((mem_walk hm).mp hl).1
      simp_all
    · simpa [List.map_map, Function.comp_def] using h.map (List.cons_injective (a := m.1))
  · rw [if_neg henter]
    exact List.nodup_nil

/-- No location is listed twice. -/
theorem nodup_walk (he : e.WellNamed) : ((e.walk enter).map Prod.fst).Nodup := by
  induction he with
  | file content => exact List.nodup_nil
  | @directory es _ distinct below ih =>
    rw [walk_directory, List.map_flatMap, List.nodup_flatMap]
    refine ⟨fun m hm => nodup_walkEntry (below m hm) (ih m hm), ?_⟩
    -- What two entries list differs in the first name of every location.
    refine (List.pairwise_map.mp distinct).imp fun {m m'} hne => List.disjoint_left.mpr ?_
    simp only [List.mem_map]
    rintro _ ⟨⟨l, n⟩, hl, rfl⟩ ⟨⟨l', n'⟩, hl', heq⟩
    obtain ⟨_, t, rfl, _⟩ := mem_walkEntry.mp hl
    obtain ⟨_, t', rfl, _⟩ := mem_walkEntry.mp hl'
    exact hne (List.head_eq_of_cons_eq heq).symm

theorem WellNamed.get? {name : String} (h : (Entry.directory es).WellNamed)
    (hget : Listing.get? name es = some e) : FilePath.IsName name ∧ e.WellNamed := by
  cases h with
  | directory names distinct below =>
    have hm := (Listing.get?_eq_some_iff distinct).mp hget
    exact ⟨names _ hm, below _ hm⟩

theorem WellNamed.find? {e' : Entry} (he : e.WellNamed) (h : e.find? l = some e') :
    (∀ name ∈ l, FilePath.IsName name) ∧ e'.WellNamed := by
  induction l generalizing e with
  | nil =>
    obtain rfl : e = e' := by simpa using h
    exact ⟨by simp, he⟩
  | cons name l ih =>
    cases e with
    | file content => simp [find?] at h
    | directory es =>
      rw [find?_cons, Option.bind_eq_some_iff] at h
      obtain ⟨e, hget, h⟩ := h
      obtain ⟨hname, he⟩ := he.get? hget
      obtain ⟨hnames, he'⟩ := ih he h
      exact ⟨List.forall_mem_cons.mpr ⟨hname, hnames⟩, he'⟩

theorem WellNamed.isName_of_at? (he : e.WellNamed) (h : e.at? l = some n) :
    ∀ name ∈ l, FilePath.IsName name := by
  obtain ⟨e', hfind, -⟩ := Option.map_eq_some_iff.mp h
  exact (he.find? hfind).1

end Entry

variable {d : Disk} {top l : Location} {n : Node}

theorem view_append {e : Entry} (h : d.root.find? top = some e) (l : Location) :
    d.view (top ++ l) = e.at? l := by
  simp [view, Disk.at?, Entry.at?, Entry.find?_append, h]

theorem isName_of_view (hd : d.root.WellNamed) (h : d.view (top ++ l) = some n) :
    ∀ name ∈ l, FilePath.IsName name :=
  fun name hname => hd.isName_of_at? h name (List.mem_append_right top hname)

end Workyard.Disk
