import Workyard.Path.FilePath

/-!
# The order of paths

Components are ordered by their kind and then by their text, and paths are ordered by their first
components that differ. The order is total, and two paths are below each other only when they say
the same.
-/

namespace Workyard.FilePath

set_option autoImplicit false

namespace Component

variable {a b c : Component}

theorem eq_of_rank_text (hrank : a.rank = b.rank) (htext : a.text = b.text) : a = b := by
  cases a <;> cases b <;> simp_all [rank, text]

theorem le_iff : a.le b = true ↔ a.rank < b.rank ∨ a.rank = b.rank ∧ a.text ≤ b.text := by
  simp [le]

theorem le_total (a b : Component) : a.le b = true ∨ b.le a = true := by
  simp only [le_iff]
  have htext := String.le_total a.text b.text
  rcases Nat.lt_trichotomy a.rank b.rank with hlt | heq | hgt
  · exact .inl (.inl hlt)
  · exact htext.imp (fun h => .inr ⟨heq, h⟩) fun h => .inr ⟨heq.symm, h⟩
  · exact .inr (.inl hgt)

theorem le_trans (hab : a.le b = true) (hbc : b.le c = true) : a.le c = true := by
  rw [le_iff] at *
  rcases hab with hab | ⟨hab, htext⟩
  · exact .inl (by omega)
  · rcases hbc with hbc | ⟨hbc, htext'⟩
    · exact .inl (by omega)
    · exact .inr ⟨hab.trans hbc, String.le_trans htext htext'⟩

theorem le_antisymm (hab : a.le b = true) (hba : b.le a = true) : a = b := by
  rw [le_iff] at *
  have hrank : a.rank = b.rank := by omega
  have htext : a.text ≤ b.text := by
    rcases hab with h | h
    · omega
    · exact h.2
  have htext' : b.text ≤ a.text := by
    rcases hba with h | h
    · omega
    · exact h.2
  exact eq_of_rank_text hrank (String.le_antisymm htext htext')

end Component

theorem componentsLe_total (as bs : List Component) :
    componentsLe as bs = true ∨ componentsLe bs as = true := by
  induction as generalizing bs with
  | nil => exact .inl rfl
  | cons a as ih =>
    cases bs with
    | nil => exact .inr rfl
    | cons b bs =>
      by_cases h : a = b
      · simpa [componentsLe, h] using ih bs
      · simpa [componentsLe, h, Ne.symm h] using a.le_total b

theorem componentsLe_trans {as bs cs : List Component} (hab : componentsLe as bs = true)
    (hbc : componentsLe bs cs = true) : componentsLe as cs = true := by
  induction as generalizing bs cs with
  | nil => rfl
  | cons a as ih =>
    cases bs with
    | nil => simp [componentsLe] at hab
    | cons b bs =>
      cases cs with
      | nil => simp [componentsLe] at hbc
      | cons c cs =>
        simp only [componentsLe] at *
        by_cases hb : a = b
        · subst hb
          by_cases hc : a = c
          · simp only [hc, if_true] at *
            exact ih hab hbc
          · simpa [hc] using hbc
        · rw [if_neg hb] at hab
          by_cases hc : b = c
          · subst hc
            simpa [hb] using hab
          · rw [if_neg hc] at hbc
            -- Were the ends equal, the one between would be equal to both.
            have hac : a ≠ c := by
              rintro rfl
              exact hb (Component.le_antisymm hab hbc)
            simpa [hac] using Component.le_trans hab hbc

theorem componentsLe_antisymm {as bs : List Component} (hab : componentsLe as bs = true)
    (hba : componentsLe bs as = true) : as = bs := by
  induction as generalizing bs with
  | nil =>
    cases bs with
    | nil => rfl
    | cons b bs => simp [componentsLe] at hba
  | cons a as ih =>
    cases bs with
    | nil => simp [componentsLe] at hab
    | cons b bs =>
      simp only [componentsLe] at hab hba
      by_cases h : a = b
      · subst h
        simp only [if_true] at hab hba
        rw [ih hab hba]
      · rw [if_neg h] at hab
        rw [if_neg (Ne.symm h)] at hba
        exact absurd (Component.le_antisymm hab hba) h

variable {p q r : FilePath}

theorem le_total (p q : FilePath) : p.le q = true ∨ q.le p = true :=
  componentsLe_total _ _

theorem le_trans (hpq : p.le q = true) (hqr : q.le r = true) : p.le r = true :=
  componentsLe_trans hpq hqr

theorem same_of_le_of_le (hpq : p.le q = true) (hqp : q.le p = true) : p.same q = true :=
  same_iff.mpr (componentsLe_antisymm hpq hqp)

/-- One path stands before another one in the order of paths. -/
def Before (p q : FilePath) : Prop :=
  p.le q = true ∧ p.same q = false

theorem Before.asymm (h : p.Before q) : ¬ q.Before p := by
  intro h'
  have hsame := same_of_le_of_le h.1 h'.1
  rw [h.2] at hsame
  exact Bool.noConfusion hsame

theorem Before.ne (h : p.Before q) : p ≠ q := by
  rintro rfl
  exact h.asymm h

/-- Sorted paths stand before each other when no two of them are the same. -/
theorem pairwise_before {ps : List FilePath} (h : ps.Pairwise fun p q => p.same q = false) :
    (ps.mergeSort le).Pairwise Before := by
  have hle : (ps.mergeSort le).Pairwise fun p q => p.le q = true :=
    @List.pairwise_mergeSort _ le (fun _ _ _ => le_trans) (fun p q => by simpa using le_total p q) ps
  have hsymm : ∀ {p q : FilePath}, p.same q = false → q.same p = false := by
    intro p q h
    simpa [same, eq_comm] using h
  have hne : (ps.mergeSort le).Pairwise fun p q => p.same q = false :=
    (List.mergeSort_perm ps le).symm.pairwise h hsymm
  exact (hle.and hne).imp fun h => ⟨h.1, h.2⟩

end Workyard.FilePath
