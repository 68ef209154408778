import Workyard.Proofs.Script.Spacing

/-!
# Tokens on their own

A word, a number or a quoted text is the same token wherever it stands: what comes behind it has no
part in how far it reaches, as long as it does not go on with a character of a word, a point or a
backslash.
-/

namespace Workyard.Script

set_option autoImplicit false

open Node Draft

variable {source source' : List Char} {c : Char} {p s cs y y' : List Char} {m n : Nat}

/-- What may come right behind a word or a number. -/
def Loose (cs : List Char) : Prop :=
  ∀ c ∈ cs.head?, Lexeme.isWordPart c = false ∧ c ≠ '\\' ∧ c ≠ '.'

theorem Loose.stops (h : Loose y) : Stops y :=
  fun c hc => ⟨(h c hc).1, (h c hc).2.1⟩

theorem Loose.closes (h : Loose y) : Closes y :=
  fun c hc => ⟨(h c hc).1, (h c hc).2.2⟩

/-! ### Escapes of characters -/

/-- An escape of a character by its number. -/
inductive UnicodeEscape : List Char → Prop
  | braces {hs} (hne : hs ≠ []) (hhs : ∀ c ∈ hs, Lexeme.isHex c = true) :
      UnicodeEscape ('\\' :: 'u' :: '\x7b' :: (hs ++ ['\x7d']))
  | four {a b c d} (h : ∀ x ∈ [a, b, c, d], Lexeme.isHex x = true) :
      UnicodeEscape ['\\', 'u', a, b, c, d]

theorem UnicodeEscape.unicodeEscape_append (h : UnicodeEscape s) (y : List Char) :
    Lexeme.unicodeEscape (s ++ y) = s.length := by
  cases h with
  | @braces hs hne hhs =>
    have htake : (hs ++ '\x7d' :: y).takeWhile Lexeme.isHex = hs := by
      rw [List.takeWhile_append_of_pos hhs, List.takeWhile_cons_of_neg (by decide), List.append_nil]
    have hclosed : ((hs ++ '\x7d' :: y)[hs.length]? == some '\x7d') = true := by simp
    have hpos : decide (0 < hs.length) = true := decide_eq_true (List.length_pos_of_ne_nil hne)
    rw [List.cons_append, List.cons_append, List.cons_append, List.append_assoc, List.singleton_append,
      Lexeme.unicodeEscape]
    simp only [htake, hclosed, hpos, Bool.and_true, if_true, List.length_cons, List.length_append,
      List.length_nil]
  | @four a b c d h =>
    simp only [List.forall_mem_cons] at h
    show Lexeme.unicodeEscape ('\\' :: 'u' :: a :: b :: c :: d :: y) = 6
    rw [Lexeme.unicodeEscape]
    · simp [h]
    · rintro rfl
      exact absurd h.1 (by decide)

theorem exists_unicodeEscape (h : Lexeme.unicodeEscape cs ≠ 0) :
    ∃ s q, cs = s ++ q ∧ UnicodeEscape s ∧ Lexeme.unicodeEscape cs = s.length := by
  suffices hsplit : ∃ s q, cs = s ++ q ∧ UnicodeEscape s by
    obtain ⟨s, q, rfl, hs⟩ := hsplit
    exact ⟨s, q, rfl, hs, hs.unicodeEscape_append q⟩
  unfold Lexeme.unicodeEscape at h
  split at h
  · rename_i q
    simp only at h
    split at h
    · rename_i hclosed
      obtain ⟨hpos, hclosed⟩ := Bool.and_eq_true_iff.mp hclosed
      have hsplit : q = q.takeWhile Lexeme.isHex ++ q.dropWhile Lexeme.isHex :=
        List.takeWhile_append_dropWhile.symm
      have hhead : (q.dropWhile Lexeme.isHex).head? = some '\x7d' := by
        rw [← drop_takeWhile, List.head?_drop]
        exact beq_iff_eq.mp hclosed
      obtain ⟨t, ht⟩ := List.head?_eq_some_iff.mp hhead
      rw [ht] at hsplit
      have hne : q.takeWhile Lexeme.isHex ≠ [] := List.ne_nil_of_length_pos (of_decide_eq_true hpos)
      refine ⟨_, t, ?_, .braces hne fun c hc => List.mem_takeWhile_imp hc⟩
      simpa using hsplit
    · exact absurd rfl h
  · rename_i a b c d q _
    split at h
    · rename_i hhex
      refine ⟨['\\', 'u', a, b, c, d], q, rfl, .four ?_⟩
      simpa [and_assoc] using hhex
    · exact absurd rfl h
  · exact absurd rfl h

theorem unicodeEscape_append (h : Lexeme.unicodeEscape p ≠ 0) (y : List Char) :
    Lexeme.unicodeEscape (p ++ y) = Lexeme.unicodeEscape p := by
  obtain ⟨s, q, rfl, hs, hlength⟩ := exists_unicodeEscape h
  rw [hlength, List.append_assoc, hs.unicodeEscape_append]

/-- An escape that ends in the first part of a text is an escape there. -/
theorem unicodeEscape_of_le (h : Lexeme.unicodeEscape (p ++ y) ≠ 0)
    (hle : Lexeme.unicodeEscape (p ++ y) ≤ p.length) :
    Lexeme.unicodeEscape p = Lexeme.unicodeEscape (p ++ y) := by
  obtain ⟨s, q, hsplit, hs, hlength⟩ := exists_unicodeEscape h
  rw [hlength] at hle ⊢
  obtain ⟨t, rfl⟩ : s <+: p :=
    List.prefix_of_prefix_length_le ⟨q, hsplit.symm⟩ (List.prefix_append p y) hle
  exact hs.unicodeEscape_append t

/-! ### Words -/

theorem wordTail_of_stops (fuel : Nat) (hy : Stops y) : Lexeme.wordTail fuel y = 0 := by
  have hnone : Lexeme.wordTail fuel ([] ++ y) = 0 :=
    wordTail_append (List.forall_mem_nil _) hy (Nat.zero_le fuel)
  exact hnone

theorem wordTail_iff {fuel fuel' : Nat} (hy : Stops y) (hfuel : s.length ≤ fuel)
    (hfuel' : s.length ≤ fuel') :
    Lexeme.wordTail fuel (s ++ y) = s.length ↔ Lexeme.wordTail fuel' s = s.length := by
  induction fuel generalizing s fuel' with
  | zero =>
    obtain rfl := List.eq_nil_of_length_eq_zero (Nat.le_zero.mp hfuel)
    cases fuel' <;> exact Iff.rfl
  | succ fuel ih =>
    cases s with
    | nil =>
      rw [List.nil_append, wordTail_of_stops _ hy]
      cases fuel' <;> exact Iff.rfl
    | cons c s =>
      rw [List.length_cons] at hfuel hfuel'
      obtain ⟨fuel', rfl⟩ : ∃ k, fuel' = k + 1 := ⟨fuel' - 1, by omega⟩
      rw [List.cons_append, Lexeme.wordTail, Lexeme.wordTail]
      by_cases hpart : Lexeme.isWordPart c = true
      · rw [if_pos hpart, if_pos hpart, List.length_cons, Nat.add_comm 1, Nat.add_comm 1,
          Nat.add_right_cancel_iff, Nat.add_right_cancel_iff]
        exact ih (by omega) (by omega)
      · rw [if_neg hpart, if_neg hpart]
        simp only
        by_cases hescape : Lexeme.unicodeEscape (c :: s) = 0
        · rw [if_pos hescape]
          by_cases hescape' : Lexeme.unicodeEscape (c :: (s ++ y)) = 0
          · rw [if_pos hescape']
          · -- The escape goes on behind the text.
            rw [if_neg hescape']
            have hlong : (c :: s).length < Lexeme.unicodeEscape (c :: (s ++ y)) := by
              by_contra hshort
              have hsame := unicodeEscape_of_le (p := c :: s) hescape' (Nat.le_of_not_lt hshort)
              exact hescape' (hsame.symm.trans hescape)
            rw [List.length_cons] at hlong ⊢
            omega
        · have hsame : Lexeme.unicodeEscape (c :: (s ++ y)) = Lexeme.unicodeEscape (c :: s) :=
            unicodeEscape_append hescape y
          have hle := unicodeEscape_le (c :: s)
          have hshort : ((c :: s).drop (Lexeme.unicodeEscape (c :: s))).length ≤ s.length := by
            rw [List.length_drop, List.length_cons]
            omega
          have hrest := ih (hshort.trans (show s.length ≤ fuel by omega))
            (hshort.trans (show s.length ≤ fuel' by omega))
          rw [List.length_drop] at hrest
          rw [hsame, if_neg hescape, if_neg hescape, ← List.cons_append,
            List.drop_append_of_le_length hle]
          constructor
          · intro h
            have := hrest.mp (by omega)
            omega
          · intro h
            have := hrest.mpr (by omega)
            omega

theorem unicodeEscape_of_ne (hc : c ≠ '\\') : Lexeme.unicodeEscape (c :: cs) = 0 := by
  by_contra hescape
  obtain ⟨s, q, hsplit, hs, -⟩ := exists_unicodeEscape hescape
  cases hs <;> exact hc (List.cons.inj hsplit).1

theorem word_iff (hy : Stops y) : Lexeme.word (s ++ y) = s.length ↔ Lexeme.word s = s.length := by
  cases s with
  | nil =>
    cases y with
    | nil => exact Iff.rfl
    | cons c y =>
      obtain ⟨hpart, hslash⟩ := hy c rfl
      have hnone : Lexeme.word (c :: y) = 0 := by
        simp [Lexeme.word, Lexeme.isWordStart, hpart, unicodeEscape_of_ne hslash]
      exact iff_of_true hnone rfl
  | cons c s =>
    have htail := wordTail_iff (s := c :: s) hy (show _ ≤ (s ++ y).length + 1 by simp)
      (Nat.le_refl (s.length + 1))
    rw [List.cons_append] at htail
    rw [List.cons_append, Lexeme.word, Lexeme.word]
    by_cases hstart : Lexeme.isWordStart c = true
    · simp only [hstart, Bool.true_or, if_true]
      exact htail
    · simp only [hstart, Bool.false_or, bne_iff_ne]
      by_cases hescape : Lexeme.unicodeEscape (c :: s) = 0
      · rw [if_neg (not_not.mpr hescape)]
        refine iff_of_false (fun h => ?_) (Nat.succ_ne_zero _).symm
        split at h
        · rename_i hescape'
          -- What begins with a backslash is a word only by its escape.
          have hpart : ¬ Lexeme.isWordPart c = true := by
            intro hpart
            refine hescape' (unicodeEscape_of_ne ?_)
            rintro rfl
            exact absurd hpart (by decide)
          have hnone := htail.mp h
          rw [Lexeme.wordTail, if_neg hpart, hescape] at hnone
          cases hnone
        · cases h
      · have hsame : Lexeme.unicodeEscape (c :: (s ++ y)) = Lexeme.unicodeEscape (c :: s) :=
          unicodeEscape_append hescape y
        rw [hsame, if_pos hescape, if_pos hescape]
        exact htail

/-! ### Numbers -/

theorem digits_append_closes {b : Base} (hy : Closes y) (p : List Char) :
    Lexeme.digits b.isDigit (p ++ y) = Lexeme.digits b.isDigit p := by
  refine digits_behind ?_ hy.not_isDigit
  cases b <;> decide

theorem digits_le {b : Base} (p : List Char) : Lexeme.digits b.isDigit p ≤ p.length := by
  refine (inLine_digits ⟨?_, ?_⟩).le p
  all_goals cases b <;> decide

theorem Closes.ne (hy : Closes (c :: y)) {x : Char} (hx : Lexeme.isWordPart x = true ∨ x = '.') : c ≠ x := by
  rintro rfl
  obtain ⟨hpart, hpoint⟩ := hy c rfl
  rcases hx with hx | hx
  · exact Bool.false_ne_true (hpart.symm.trans hx)
  · exact hpoint hx

theorem head?_append_closes (hy : Closes y) {x : Char} (hx : Lexeme.isWordPart x = true ∨ x = '.')
    (p : List Char) : ((p ++ y).head? == some x) = (p.head? == some x) := by
  cases p with
  | nil =>
    cases y with
    | nil => rfl
    | cons c y => simp [hy.ne hx]
  | cons c p => rfl

theorem exponent_ne_one (cs : List Char) : Lexeme.exponent cs ≠ 1 := by
  unfold Lexeme.exponent
  split
  · simp only
    split
    · split <;> split <;> omega
    · exact Nat.zero_ne_one
  · exact Nat.zero_ne_one

theorem head?_of_exponent (h : Lexeme.exponent cs ≠ 0) : (cs.head? == some 'n') = false := by
  unfold Lexeme.exponent at h
  split at h
  · rename_i e s cs
    have he : e ≠ 'n' := by
      rintro rfl
      exact h rfl
    simpa using he
  · exact absurd rfl h

/-- Only an exponent that has no digits goes on with what stands behind it. -/
theorem exponent_append_closes (hy : Closes y) (hp : p.length ≠ 1) :
    Lexeme.exponent (p ++ y) = Lexeme.exponent p := by
  rcases p with _ | ⟨e, _ | ⟨s, p⟩⟩
  · rcases y with _ | ⟨e, _ | ⟨s, y⟩⟩
    · rfl
    · rfl
    · simp [Lexeme.exponent, hy.ne (x := 'e') (.inl (by decide)), hy.ne (x := 'E') (.inl (by decide))]
  · exact absurd rfl hp
  · have hdigits := digits_append_closes (b := .decimal) hy p
    have hdigits' : Lexeme.digits Char.isDigit (s :: (p ++ y)) = Lexeme.digits Char.isDigit (s :: p) :=
      digits_append_closes (b := .decimal) hy (s :: p)
    show Lexeme.exponent (e :: s :: (p ++ y)) = _
    rw [Lexeme.exponent, Lexeme.exponent, hdigits']
    simp only [Base.isDigit] at hdigits
    rw [hdigits]

theorem exponent_iff (hy : Closes y) :
    Lexeme.exponent (p ++ y) = p.length ↔ Lexeme.exponent p = p.length := by
  by_cases hp : p.length = 1
  · rw [hp]
    exact iff_of_false (exponent_ne_one _) (exponent_ne_one _)
  · rw [exponent_append_closes hy hp]

theorem fraction_iff (hy : Closes y) :
    Lexeme.fraction (p ++ y) = p.length ↔ Lexeme.fraction p = p.length := by
  have hdigits := digits_append_closes (b := .decimal) hy p
  have hle := digits_le (b := .decimal) p
  simp only [Base.isDigit] at hdigits hle
  have hexponent := exponent_iff (p := p.drop (Lexeme.digits Char.isDigit p)) hy
  rw [List.length_drop] at hexponent
  unfold Lexeme.fraction
  simp only [hdigits, List.drop_append_of_le_length hle]
  omega

theorem pointed_iff (hy : Closes y) : pointed (p ++ y) = p.length ↔ pointed p = p.length := by
  rcases p with _ | ⟨x, p⟩
  · refine iff_of_true ?_ rfl
    cases y with
    | nil => rfl
    | cons c y => exact pointed_of_ne (hy.ne (.inr rfl)) y
  · by_cases hx : x = '.'
    · subst hx
      cases p with
      | nil =>
        refine iff_of_false ?_ Nat.zero_ne_one
        cases y with
        | nil => exact Nat.zero_ne_one
        | cons d y =>
          have hd : d.isDigit = false := (hy.not_isDigit (b := .decimal) d rfl).1
          show (if d.isDigit then 1 + Lexeme.fraction (d :: y) else 0) ≠ 1
          rw [hd, if_neg Bool.false_ne_true]
          exact Nat.zero_ne_one
      | cons d p =>
        have hfraction := fraction_iff (p := d :: p) hy
        show (if d.isDigit then 1 + Lexeme.fraction (d :: p ++ y) else 0) = (d :: p).length + 1 ↔
          (if d.isDigit then 1 + Lexeme.fraction (d :: p) else 0) = (d :: p).length + 1
        split
        · omega
        · exact Iff.rfl
    · rw [List.cons_append, pointed_of_ne hx, pointed_of_ne hx]

theorem decimal_iff (hy : Closes y) :
    Lexeme.decimal (p ++ y) = p.length ↔ Lexeme.decimal p = p.length := by
  have hdigits := digits_append_closes (b := .decimal) hy p
  have hle := digits_le (b := .decimal) p
  simp only [Base.isDigit] at hdigits hle
  rw [decimal_eq, decimal_eq, hdigits]
  generalize Lexeme.digits Char.isDigit p = n at hle ⊢
  have hpoint := head?_append_closes hy (x := '.') (.inr rfl) (p.drop n)
  have hbig := head?_append_closes hy (x := 'n') (.inl (by decide)) (p.drop n)
  unfold decimalFrom
  by_cases hn : n = 0
  · rw [if_pos hn, if_pos hn]
    exact pointed_iff hy
  rw [if_neg hn, if_neg hn, List.take_append_of_le_length hle, List.drop_append_of_le_length hle,
    hpoint, hbig]
  have hlength : (p.drop n).length = p.length - n := List.length_drop
  generalize p.drop n = u at hpoint hbig hlength ⊢
  cases hwhole : Lexeme.isWholePart (p.take n) with
  | false => simp only [Bool.false_and, Bool.false_eq_true, if_false]
  | true =>
    simp only [Bool.true_and]
    cases hfront : (u.head? == some '.') with
    | true =>
      have hpos := length_pos_of_head? hfront
      have hfraction := fraction_iff (p := u.drop 1) hy
      rw [List.length_drop] at hfraction
      rw [if_pos rfl, if_pos rfl, List.drop_append_of_le_length (show 1 ≤ u.length from hpos)]
      omega
    | false =>
      simp only [Bool.false_eq_true, if_false]
      by_cases hone : u.length = 1
      · have hnone : Lexeme.exponent u = 0 := by
          obtain ⟨e, rfl⟩ := List.length_eq_one_iff.mp hone
          rfl
        by_cases hnone' : Lexeme.exponent (u ++ y) = 0
        · simp only [hnone, hnone']
        · -- The letter of an exponent stands last, with digits behind it.
          have hletter := (head?_append_closes hy (.inl (by decide)) u).symm.trans
            (head?_of_exponent hnone')
          have hdangling := exponent_ne_one (u ++ y)
          simp only [hnone, bne_self_eq_false, bne_iff_ne.mpr hnone', hletter, if_true,
            Bool.false_eq_true, if_false]
          omega
      · rw [exponent_append_closes hy hone]

theorem radixDigits_append_closes {b : Base} (hy : Closes y) (p : List Char) :
    Lexeme.radixDigits b.isDigit (p ++ y) = Lexeme.radixDigits b.isDigit p := by
  unfold Lexeme.radixDigits
  simp only [digits_append_closes hy, List.drop_append_of_le_length (digits_le p),
    head?_append_closes hy (x := 'n') (.inl (by decide))]

theorem number_iff (hy : Closes y) : Lexeme.number (s ++ y) = s.length ↔ Lexeme.number s = s.length := by
  by_cases hzero : ∃ m q, s = '0' :: m :: q
  · obtain ⟨m, q, rfl⟩ := hzero
    have hdecimal := decimal_iff (p := '0' :: m :: q) hy
    have hhex := radixDigits_append_closes (b := .hexadecimal) hy q
    have hoctal := radixDigits_append_closes (b := .octal) hy q
    have hbinary := radixDigits_append_closes (b := .binary) hy q
    simp only [Base.isDigit] at hhex hoctal hbinary
    show Lexeme.number ('0' :: m :: (q ++ y)) = _ ↔ _
    rw [Lexeme.number, Lexeme.number, hhex, hoctal, hbinary]
    split
    · exact Iff.rfl
    split
    · exact Iff.rfl
    split
    · exact Iff.rfl
    · exact hdecimal
  · rw [number_eq_decimal, number_eq_decimal]
    · exact decimal_iff hy
    · rintro q rfl c hc
      cases q with
      | nil => cases hc
      | cons m q => exact absurd ⟨m, q, rfl⟩ hzero
    · rintro q hq c hc hmem
      have hpart : Lexeme.isWordPart c = true := by
        simp only [List.mem_cons, List.not_mem_nil, or_false] at hmem
        rcases hmem with rfl | rfl | rfl | rfl | rfl | rfl <;> decide
      rcases s with _ | ⟨x, _ | ⟨m, s⟩⟩
      · obtain rfl : y = '0' :: q := hq
        exact absurd rfl (hy.ne (.inl (by decide)))
      · obtain ⟨-, rfl⟩ := List.cons.inj hq
        exact Bool.false_ne_true ((hy c hc).1.symm.trans hpart)
      · obtain ⟨rfl, -⟩ := List.cons.inj hq
        exact absurd ⟨m, s, rfl⟩ hzero

end Workyard.Script
