import Mathlib.Data.List.Destutter
import Mathlib.Data.List.DropRight
import Workyard.Text.Tidy

/-!
# Runs of blank lines

Of the lines of a text, with no white space at their ends, those that are empty are blank. Leaving
one line of every run of blank lines takes no other line away, and a line that is not blank divides
the runs before it from those after it.
-/

namespace Workyard.Text

set_option autoImplicit false

/-- Not both of two lines are blank. -/
def NotBothBlank (l m : List Char) : Prop :=
  l ≠ [] ∨ m ≠ []

instance : DecidableRel NotBothBlank :=
  fun _ _ => inferInstanceAs (Decidable (_ ∨ _))

/-- Leaves one line of every run of blank lines. -/
def squeeze (ls : List (List Char)) : List (List Char) :=
  ls.destutter NotBothBlank

/-- Drops the blank lines at the start. -/
def dropTop (ls : List (List Char)) : List (List Char) :=
  ls.dropWhile (·.isEmpty)

/-- Drops the blank lines at the end. -/
def dropEnd (ls : List (List Char)) : List (List Char) :=
  ls.rdropWhile (·.isEmpty)

/-- Lines among which none is blank at the start or at the end, and no two in a row are. -/
structure Squeezed (ls : List (List Char)) : Prop where
  top : ls.head? ≠ some []
  last : ls.getLast? ≠ some []
  between : ls.IsChain NotBothBlank

variable {l m : List Char} {ls ms : List (List Char)}

/-! ### Squeezing -/

/-- Induction on lines with a case for each way in which a run of blank lines goes on. -/
theorem blankRuns_induction {motive : List (List Char) → Prop} (nil : motive [])
    (line : ∀ l ls, l ≠ [] → motive ls → motive (l :: ls)) (last : motive [[]])
    (between : ∀ l ls, l ≠ [] → motive (l :: ls) → motive ([] :: l :: ls))
    (again : ∀ ls, motive ([] :: ls) → motive ([] :: [] :: ls)) (ls : List (List Char)) :
    motive ls := by
  induction ls with
  | nil => exact nil
  | cons l ls ih =>
    by_cases hl : l = []
    · subst hl
      cases ls with
      | nil => exact last
      | cons m ms =>
        by_cases hm : m = []
        · subst hm
          exact again ms ih
        · exact between m ms hm ih
    · exact line l ls hl ih

@[simp] theorem squeeze_nil : squeeze [] = [] := rfl

theorem squeeze_cons (h : l ≠ []) : squeeze (l :: ls) = l :: squeeze ls := by
  cases ls with
  | nil => rfl
  | cons m ms =>
    have hnot : NotBothBlank l m := .inl h
    unfold squeeze
    rw [List.destutter_cons', List.destutter'_cons_pos _ hnot, List.destutter_cons']

theorem squeeze_blank_cons (h : l ≠ []) : squeeze ([] :: l :: ls) = [] :: squeeze (l :: ls) := by
  have hnot : NotBothBlank [] l := .inr h
  unfold squeeze
  rw [List.destutter_cons', List.destutter'_cons_pos _ hnot, List.destutter_cons']

theorem squeeze_blank_blank : squeeze ([] :: [] :: ls) = squeeze ([] :: ls) := by
  have hnot : ¬ NotBothBlank [] [] := by decide
  unfold squeeze
  rw [List.destutter_cons', List.destutter'_cons_neg _ hnot, List.destutter_cons']

/-- A line that is not blank stays, and the runs on its two sides have nothing to do with each
other. -/
theorem squeeze_append_cons (h : l ≠ []) (ls ms : List (List Char)) :
    squeeze (ls ++ l :: ms) = squeeze ls ++ l :: squeeze ms := by
  induction ls using blankRuns_induction with
  | nil => exact squeeze_cons h
  | line k ls hk ih =>
    rw [List.cons_append, squeeze_cons hk, squeeze_cons hk, ih]
    rfl
  | last =>
    rw [List.singleton_append, squeeze_blank_cons h, squeeze_cons h]
    rfl
  | between k ls hk ih =>
    rw [List.cons_append, List.cons_append, squeeze_blank_cons hk, squeeze_blank_cons hk,
      ← List.cons_append, ih]
    rfl
  | again ls ih =>
    rw [List.cons_append, List.cons_append, squeeze_blank_blank, squeeze_blank_blank,
      ← List.cons_append, ih]

theorem head?_squeeze (ls : List (List Char)) : (squeeze ls).head? = ls.head? := by
  induction ls using blankRuns_induction with
  | nil => rfl
  | line l ls hl _ => rw [squeeze_cons hl, List.head?_cons, List.head?_cons]
  | last => rfl
  | between l ls hl _ => rw [squeeze_blank_cons hl, List.head?_cons, List.head?_cons]
  | again ls ih => rw [squeeze_blank_blank, ih, List.head?_cons, List.head?_cons]

theorem getLast?_squeeze (ls : List (List Char)) : (squeeze ls).getLast? = ls.getLast? := by
  induction ls using blankRuns_induction with
  | nil => rfl
  | line l ls hl ih => rw [squeeze_cons hl, List.getLast?_cons, List.getLast?_cons, ih]
  | last => rfl
  | between l ls hl ih => rw [squeeze_blank_cons hl, List.getLast?_cons, List.getLast?_cons, ih]
  | again ls ih => rw [squeeze_blank_blank, ih, List.getLast?_cons_cons]

theorem mem_of_mem_squeeze (h : l ∈ squeeze ls) : l ∈ ls :=
  (List.destutter_sublist NotBothBlank ls).subset h

/-- Squeezing keeps every line that is not blank. -/
theorem filter_squeeze (ls : List (List Char)) :
    (squeeze ls).filter (!·.isEmpty) = ls.filter (!·.isEmpty) := by
  induction ls using blankRuns_induction with
  | nil => rfl
  | line l ls hl ih => rw [squeeze_cons hl, List.filter_cons, List.filter_cons, ih]
  | last => rfl
  | between l ls hl ih => rw [squeeze_blank_cons hl, List.filter_cons, List.filter_cons, ih]
  | again ls ih => simpa [squeeze_blank_blank] using ih

/-! ### Blank lines at the ends -/

theorem dropTop_blank (ls : List (List Char)) : dropTop ([] :: ls) = dropTop ls := rfl

theorem dropTop_cons (h : l ≠ []) : dropTop (l :: ls) = l :: ls := by
  simp [dropTop, h]

theorem dropTop_concat (h : l ≠ []) : dropTop (ls ++ [l]) = dropTop ls ++ [l] := by
  simp [dropTop, List.dropWhile_append, h]

theorem dropEnd_concat_blank (ls : List (List Char)) : dropEnd (ls ++ [[]]) = dropEnd ls :=
  List.rdropWhile_concat_pos _ _ _ rfl

theorem dropEnd_concat (h : l ≠ []) : dropEnd (ls ++ [l]) = ls ++ [l] :=
  List.rdropWhile_concat_neg _ _ _ (by simpa using h)

theorem filter_dropTop (ls : List (List Char)) :
    (dropTop ls).filter (!·.isEmpty) = ls.filter (!·.isEmpty) := by
  induction ls with
  | nil => rfl
  | cons l ls ih =>
    by_cases hl : l = []
    · subst hl
      simpa [dropTop_blank] using ih
    · rw [dropTop_cons hl]

theorem filter_dropEnd (ls : List (List Char)) :
    (dropEnd ls).filter (!·.isEmpty) = ls.filter (!·.isEmpty) := by
  induction ls using List.reverseRecOn with
  | nil => rfl
  | append_singleton ls l ih =>
    by_cases hl : l = []
    · subst hl
      simpa [dropEnd_concat_blank] using ih
    · rw [dropEnd_concat hl]

theorem head?_dropTop (ls : List (List Char)) : (dropTop ls).head? ≠ some [] := by
  intro h
  have hhead := List.head?_dropWhile_not (·.isEmpty) ls
  rw [show ls.dropWhile (·.isEmpty) = dropTop ls from rfl, h] at hhead
  exact absurd hhead (by decide)

theorem getLast?_dropEnd (ls : List (List Char)) : (dropEnd ls).getLast? ≠ some [] := by
  induction ls using List.reverseRecOn with
  | nil => decide
  | append_singleton ls l ih =>
    by_cases hl : l = []
    · subst hl
      rwa [dropEnd_concat_blank]
    · rw [dropEnd_concat hl, List.getLast?_concat]
      simpa using hl

/-! ### Squeezed lines -/

theorem squeezed_squeeze (ls : List (List Char)) : Squeezed (squeeze (dropTop (dropEnd ls))) where
  top := by
    rw [head?_squeeze]
    exact head?_dropTop _
  last := by
    rcases List.eq_nil_or_concat' (dropEnd ls) with hnil | ⟨ms, l, hlast⟩
    · rw [hnil]
      decide
    · have hl : l ≠ [] := by
        rintro rfl
        exact getLast?_dropEnd ls (by rw [hlast, List.getLast?_concat])
      rw [hlast, dropTop_concat hl, squeeze_append_cons hl, squeeze_nil, List.getLast?_concat]
      simpa using hl
  between := List.isChain_destutter _ _

theorem Squeezed.squeeze (h : Squeezed ls) : squeeze ls = ls :=
  List.destutter_of_isChain _ _ h.between

theorem Squeezed.dropTop (h : Squeezed ls) : dropTop ls = ls := by
  cases ls with
  | nil => rfl
  | cons l ls => exact dropTop_cons fun hl => h.top (by rw [List.head?_cons, hl])

theorem Squeezed.dropEnd (h : Squeezed ls) : dropEnd ls = ls := by
  rcases List.eq_nil_or_concat' ls with rfl | ⟨ms, l, rfl⟩
  · rfl
  · exact dropEnd_concat fun hl => h.last (by rw [List.getLast?_concat, hl])

end Workyard.Text
