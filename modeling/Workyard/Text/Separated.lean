/-!
# Separated text

Cutting a text at a separator and joining the pieces again.
-/

namespace Workyard.Text

set_option autoImplicit false

/-- The pieces between the separators; a text without one is a single piece. -/
def splitAt (sep : Char) : List Char → List (List Char)
  | [] => [[]]
  | c :: cs =>
    if c = sep then [] :: splitAt sep cs
    else
      match splitAt sep cs with
      | [] => [[c]]
      | p :: ps => (c :: p) :: ps

/-- The pieces with a separator between any two. -/
def joinWith (sep : List Char) : List (List Char) → List Char
  | [] => []
  | [p] => p
  | p :: ps => p ++ sep ++ joinWith sep ps

theorem splitAt_ne_nil (sep : Char) (cs : List Char) : splitAt sep cs ≠ [] := by
  induction cs with
  | nil => simp [splitAt]
  | cons c cs ih =>
    by_cases h : c = sep
    · simp [splitAt, h]
    · cases hs : splitAt sep cs <;> simp [splitAt, h, hs]

theorem joinWith_splitAt (sep : Char) (cs : List Char) :
    joinWith [sep] (splitAt sep cs) = cs := by
  induction cs with
  | nil => rfl
  | cons c cs ih =>
    by_cases h : c = sep
    · cases hs : splitAt sep cs with
      | nil => exact absurd hs (splitAt_ne_nil sep cs)
      | cons p ps => simp_all [splitAt, joinWith]
    · cases hs : splitAt sep cs with
      | nil => exact absurd hs (splitAt_ne_nil sep cs)
      | cons p ps => cases ps <;> simp_all [splitAt, joinWith]

theorem not_mem_of_mem_splitAt {sep : Char} {cs p : List Char} (h : p ∈ splitAt sep cs) :
    sep ∉ p := by
  induction cs generalizing p with
  | nil => simp_all [splitAt]
  | cons c cs ih =>
    by_cases hc : c = sep
    · simp only [splitAt, hc, if_true, List.mem_cons] at h
      rcases h with rfl | h
      · simp
      · exact ih h
    · cases hs : splitAt sep cs with
      | nil => exact absurd hs (splitAt_ne_nil sep cs)
      | cons q qs =>
        simp only [splitAt, hc, if_false, hs, List.mem_cons] at h
        rcases h with rfl | h
        · have := ih (p := q) (by simp [hs])
          simp only [List.mem_cons, not_or]
          exact ⟨fun h => hc h.symm, this⟩
        · exact ih (by simp [hs, h])

theorem joinWith_cons_of_ne_nil {sep p : List Char} {ps : List (List Char)} (h : ps ≠ []) :
    joinWith sep (p :: ps) = p ++ sep ++ joinWith sep ps := by
  cases ps with
  | nil => exact absurd rfl h
  | cons q qs => rfl

theorem mem_joinWith {sep p : List Char} {ps : List (List Char)} {c : Char} (h : p ∈ ps)
    (hc : c ∈ p) : c ∈ joinWith sep ps := by
  induction ps with
  | nil => exact absurd h (by simp)
  | cons q qs ih =>
    by_cases hqs : qs = []
    · subst hqs
      rw [List.mem_singleton] at h
      exact h ▸ hc
    · rw [joinWith_cons_of_ne_nil hqs]
      rcases List.mem_cons.mp h with rfl | h
      · simp [hc]
      · simp [ih h]

theorem mem_of_mem_joinWith {sep : List Char} {ps : List (List Char)} {c : Char}
    (h : c ∈ joinWith sep ps) : c ∈ sep ∨ ∃ p ∈ ps, c ∈ p := by
  induction ps with
  | nil => exact absurd h (by simp [joinWith])
  | cons q qs ih =>
    by_cases hqs : qs = []
    · subst hqs
      exact .inr ⟨q, List.mem_cons_self, h⟩
    · rw [joinWith_cons_of_ne_nil hqs, List.mem_append, List.mem_append] at h
      rcases h with (h | h) | h
      · exact .inr ⟨q, List.mem_cons_self, h⟩
      · exact .inl h
      · exact (ih h).imp_right fun ⟨p, hp, hc⟩ => ⟨p, List.mem_cons_of_mem _ hp, hc⟩

theorem mem_of_mem_splitAt {sep : Char} {cs p : List Char} {c : Char} (h : p ∈ splitAt sep cs)
    (hc : c ∈ p) : c ∈ cs := by
  rw [← joinWith_splitAt sep cs]
  exact mem_joinWith h hc

/-- A text after which none of its separators follows goes on in its last piece. -/
theorem splitAt_append {sep : Char} {cs ds : List Char} (h : sep ∉ ds) :
    splitAt sep (cs ++ ds) =
      (splitAt sep cs).dropLast ++ [(splitAt sep cs).getLast (splitAt_ne_nil sep cs) ++ ds] := by
  induction cs with
  | nil =>
    induction ds with
    | nil => rfl
    | cons d ds ih =>
      have hd : d ≠ sep := fun hd => h (by simp [hd])
      have := ih fun hs => h (List.mem_cons_of_mem d hs)
      simp only [List.nil_append] at this
      simp [splitAt, hd, this]
  | cons c cs ih =>
    by_cases hc : c = sep
    · have hne : splitAt sep cs ≠ [] := splitAt_ne_nil sep cs
      simp [splitAt, hc, ih, List.dropLast_cons_of_ne_nil hne, List.getLast_cons hne]
    · cases hs : splitAt sep cs with
      | nil => exact absurd hs (splitAt_ne_nil sep cs)
      | cons p ps =>
        have := ih
        simp only [hs] at this
        cases ps with
        | nil => simp_all [splitAt]
        | cons q qs => simp_all [splitAt]

theorem splitAt_of_not_mem {sep : Char} {cs : List Char} (h : sep ∉ cs) :
    splitAt sep cs = [cs] := by
  simpa [splitAt] using @splitAt_append sep [] cs h

theorem splitAt_append_cons (sep : Char) (cs ds : List Char) :
    splitAt sep (cs ++ sep :: ds) = splitAt sep cs ++ splitAt sep ds := by
  induction cs with
  | nil => simp [splitAt]
  | cons c cs ih =>
    by_cases hc : c = sep
    · simp [splitAt, hc, ih]
    · cases hs : splitAt sep cs with
      | nil => exact absurd hs (splitAt_ne_nil sep cs)
      | cons p ps => simp [splitAt, hc, ih, hs]

theorem splitAt_joinWith {sep : Char} {ps : List (List Char)} (hne : ps ≠ [])
    (h : ∀ p ∈ ps, sep ∉ p) : splitAt sep (joinWith [sep] ps) = ps := by
  induction ps with
  | nil => exact absurd rfl hne
  | cons p ps ih =>
    have hp : splitAt sep p = [p] := splitAt_of_not_mem (h p List.mem_cons_self)
    by_cases hps : ps = []
    · subst hps
      exact hp
    · have hrest := ih hps fun q hq => h q (List.mem_cons_of_mem p hq)
      rw [joinWith_cons_of_ne_nil hps, List.append_assoc, List.singleton_append,
        splitAt_append_cons, hp, hrest]
      rfl

end Workyard.Text
