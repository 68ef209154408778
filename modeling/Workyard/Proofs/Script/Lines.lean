import Workyard.Proofs.Script.Numerals
import Workyard.Script.Grammar

/-!
# Tokens within a line

Words, numbers and most escapes end before the end of their line, so that nothing behind it has a part
in how far they reach.
-/

namespace Workyard.Script

set_option autoImplicit false

variable {c : Char} {p t cs : List Char}

/-- Nothing is left of the line. -/
def EndsLine (cs : List Char) : Prop :=
  ∀ c ∈ cs.head?, c = '\n' ∨ c = '\r'

/-- A function that looks at nothing behind the end of the line. -/
def Bounded {α : Type} (f : List Char → α) : Prop :=
  ∀ p t, EndsLine t → f (p ++ t) = f p

/-- The length of a token within a line. -/
structure InLine (f : List Char → Nat) : Prop where
  bounded : Bounded f
  le : ∀ cs, f cs ≤ cs.length

theorem EndsLine.ne (h : EndsLine (c :: cs)) {x : Char} (hx : x ≠ '\n' ∧ x ≠ '\r') : c ≠ x := by
  rintro rfl
  exact (h c rfl).elim hx.1 hx.2

/-- A property of characters that the ends of a line do not have. -/
def Breaking (f : Char → Bool) : Prop :=
  f '\n' = false ∧ f '\r' = false

instance (f : Char → Bool) : Decidable (Breaking f) :=
  inferInstanceAs (Decidable (_ ∧ _))

theorem EndsLine.not {f : Char → Bool} (h : EndsLine (c :: cs)) (hf : Breaking f) : f c = false := by
  rcases h c rfl with rfl | rfl
  · exact hf.1
  · exact hf.2

theorem takeWhile_line {f : Char → Bool} (hf : Breaking f) : Bounded (List.takeWhile f) := by
  intro p t ht
  rw [List.takeWhile_append]
  split
  · rename_i hlength
    have hp : p.takeWhile f = p := (List.takeWhile_prefix f).eq_of_length hlength
    cases t with
    | nil => rw [List.takeWhile_nil, List.append_nil, hp]
    | cons c t => rw [List.takeWhile_cons, ht.not hf, if_neg Bool.false_ne_true, List.append_nil, hp]
  · rfl

theorem inLine_takeWhile {f : Char → Bool} (hf : Breaking f) :
    InLine fun cs => (cs.takeWhile f).length where
  bounded p t ht := congrArg List.length (takeWhile_line hf p t ht)
  le _ := (List.takeWhile_prefix f).length_le

theorem bounded_startsWith {s : String} (hs : '\n' ∉ s.toList ∧ '\r' ∉ s.toList) :
    Bounded (Lexeme.startsWith s) := by
  have hbegins (cs : List Char) (hcs : '\n' ∉ cs ∧ '\r' ∉ cs) : Bounded cs.isPrefixOf := by
    induction cs with
    | nil => exact fun _ _ _ => rfl
    | cons x cs ih =>
      rw [List.mem_cons, not_or, List.mem_cons, not_or] at hcs
      obtain ⟨⟨hfeed, hfeeds⟩, hreturn, hreturns⟩ := hcs
      intro p t ht
      cases p with
      | nil =>
        cases t with
        | nil => rfl
        | cons c t => simp [List.isPrefixOf, Ne.symm (ht.ne ⟨Ne.symm hfeed, Ne.symm hreturn⟩)]
      | cons c p =>
        rw [List.cons_append, List.isPrefixOf, List.isPrefixOf, ih ⟨hfeeds, hreturns⟩ p t ht]
  exact hbegins s.toList hs

theorem bounded_head (x : Char) (hx : x ≠ '\n' ∧ x ≠ '\r') :
    Bounded fun cs => cs.head? == some x := by
  intro p t ht
  cases p with
  | nil =>
    cases t with
    | nil => rfl
    | cons c t => simp [ht.ne hx]
  | cons c p => rfl

/-! ### Words -/

theorem breaking_isHex : Breaking Lexeme.isHex := by decide

theorem getElem?_line {x : Char} (hx : x ≠ '\n' ∧ x ≠ '\r') (n : Nat) (hn : n ≤ p.length)
    (ht : EndsLine t) : ((p ++ t)[n]? == some x) = (p[n]? == some x) := by
  have hdrop (cs : List Char) : cs[n]? = (cs.drop n).head? := List.head?_drop.symm
  rw [hdrop, hdrop, List.drop_append_of_le_length hn]
  exact bounded_head x hx (p.drop n) t ht

/-- No escape goes over the end of the line. -/
theorem unicodeEscape_short (hp : ∀ q, p ≠ '\\' :: 'u' :: '\x7b' :: q)
    (hp' : ∀ a b c d q, p ≠ '\\' :: 'u' :: a :: b :: c :: d :: q) (ht : EndsLine t) :
    Lexeme.unicodeEscape (p ++ t) = 0 := by
  unfold Lexeme.unicodeEscape
  split
  · rename_i q heq
    rcases p with _ | ⟨x, _ | ⟨y, _ | ⟨z, p⟩⟩⟩
    · cases heq
      exact absurd rfl (ht.ne (by decide))
    · cases heq
      exact absurd rfl (ht.ne (by decide))
    · cases heq
      exact absurd rfl (ht.ne (by decide))
    · cases heq
      exact absurd rfl (hp p)
  · rename_i a b c d q hne heq
    have hhex {e : Char} {r : List Char} (hr : EndsLine (e :: r)) : Lexeme.isHex e = false :=
      hr.not breaking_isHex
    rcases p with _ | ⟨x, _ | ⟨y, _ | ⟨a, _ | ⟨b, _ | ⟨c, _ | ⟨d, p⟩⟩⟩⟩⟩⟩
    · cases heq
      exact absurd rfl (ht.ne (by decide))
    · cases heq
      exact absurd rfl (ht.ne (by decide))
    all_goals cases heq
    · simp [hhex ht]
    · simp [hhex ht]
    · simp [hhex ht]
    · simp [hhex ht]
    · exact absurd rfl (hp' a b c d p)
  · rfl

theorem bounded_unicodeEscape : Bounded Lexeme.unicodeEscape := by
  intro p t ht
  rw [Lexeme.unicodeEscape.eq_def p]
  split
  · rename_i q
    show Lexeme.unicodeEscape ('\\' :: 'u' :: '\x7b' :: (q ++ t)) = _
    have hle := (List.takeWhile_prefix (l := q) Lexeme.isHex).length_le
    rw [Lexeme.unicodeEscape]
    simp only [takeWhile_line breaking_isHex q t ht, getElem?_line (x := '\x7d') (by decide) _ hle ht]
  · rename_i a b c d q hne
    show Lexeme.unicodeEscape ('\\' :: 'u' :: a :: b :: c :: d :: (q ++ t)) = _
    rw [Lexeme.unicodeEscape]
    exact hne
  · rename_i hp hp'
    exact unicodeEscape_short (fun q heq => hp q heq) (fun a b c d q heq => hp' a b c d q heq) ht

theorem unicodeEscape_le (cs : List Char) : Lexeme.unicodeEscape cs ≤ cs.length := by
  unfold Lexeme.unicodeEscape
  split
  · rename_i q
    simp only
    split
    · rename_i h
      have hclosed : q[(q.takeWhile Lexeme.isHex).length]? = some '\x7d' := by
        simpa using (Bool.and_eq_true_iff.mp h).2
      obtain ⟨hlt, -⟩ := List.getElem?_eq_some_iff.mp hclosed
      simp only [List.length_cons]
      omega
    · exact Nat.zero_le _
  · split
    · simp only [List.length_cons]
      omega
    · exact Nat.zero_le _
  · exact Nat.zero_le _

theorem wordTail_le (fuel : Nat) (cs : List Char) : Lexeme.wordTail fuel cs ≤ cs.length := by
  induction fuel generalizing cs with
  | zero => exact Nat.zero_le _
  | succ fuel ih =>
    cases cs with
    | nil => exact Nat.zero_le _
    | cons c cs =>
      rw [Lexeme.wordTail]
      split
      · have := ih cs
        rw [List.length_cons]
        omega
      · simp only
        split
        · exact Nat.zero_le _
        · have hle := unicodeEscape_le (c :: cs)
          have := ih ((c :: cs).drop (Lexeme.unicodeEscape (c :: cs)))
          rw [List.length_drop] at this
          omega

theorem breaking_isWordPart : Breaking Lexeme.isWordPart := by decide

theorem wordTail_of_endsLine (fuel : Nat) (ht : EndsLine t) : Lexeme.wordTail fuel t = 0 := by
  cases fuel with
  | zero => rfl
  | succ fuel =>
    cases t with
    | nil => rfl
    | cons c t =>
      have hescape : Lexeme.unicodeEscape (c :: t) = 0 :=
        unicodeEscape_short (p := []) nofun nofun ht
      rw [Lexeme.wordTail, ht.not breaking_isWordPart, if_neg Bool.false_ne_true, hescape]
      rfl

theorem wordTail_line {fuel fuel' : Nat} (hfuel : p.length ≤ fuel) (hfuel' : p.length ≤ fuel')
    (ht : EndsLine t) : Lexeme.wordTail fuel (p ++ t) = Lexeme.wordTail fuel' p := by
  induction fuel generalizing p fuel' with
  | zero =>
    obtain rfl := List.eq_nil_of_length_eq_zero (Nat.le_zero.mp hfuel)
    cases fuel' <;> rfl
  | succ fuel ih =>
    cases p with
    | nil =>
      rw [List.nil_append, wordTail_of_endsLine _ ht]
      cases fuel' <;> rfl
    | cons c p =>
      rw [List.length_cons] at hfuel hfuel'
      obtain ⟨fuel', rfl⟩ : ∃ k, fuel' = k + 1 := ⟨fuel' - 1, by omega⟩
      have hescape : Lexeme.unicodeEscape (c :: (p ++ t)) = Lexeme.unicodeEscape (c :: p) :=
        bounded_unicodeEscape (c :: p) t ht
      have hle := unicodeEscape_le (c :: p)
      have hpart := ih (show p.length ≤ fuel by omega) (show p.length ≤ fuel' by omega)
      rw [List.cons_append, Lexeme.wordTail, Lexeme.wordTail, hescape, hpart]
      by_cases hnone : Lexeme.unicodeEscape (c :: p) = 0
      · simp only [hnone, if_true]
      · have hdrop : ((c :: p).drop (Lexeme.unicodeEscape (c :: p))).length ≤ p.length := by
          rw [List.length_drop, List.length_cons]
          omega
        have hrest := ih (hdrop.trans (show p.length ≤ fuel by omega))
          (hdrop.trans (show p.length ≤ fuel' by omega))
        simp only [← List.cons_append, List.drop_append_of_le_length hle, hrest]

theorem breaking_isWordStart : Breaking Lexeme.isWordStart := by decide

theorem inLine_word : InLine Lexeme.word where
  bounded p t ht := by
    cases p with
    | nil =>
      cases t with
      | nil => rfl
      | cons c t =>
        have hescape : Lexeme.unicodeEscape (c :: t) = 0 :=
          unicodeEscape_short (p := []) nofun nofun ht
        show Lexeme.word (c :: t) = 0
        rw [Lexeme.word, ht.not breaking_isWordStart, hescape]
        rfl
    | cons c p =>
      have hescape : Lexeme.unicodeEscape (c :: (p ++ t)) = Lexeme.unicodeEscape (c :: p) :=
        bounded_unicodeEscape (c :: p) t ht
      have htail : Lexeme.wordTail ((p ++ t).length + 1) (c :: (p ++ t)) =
          Lexeme.wordTail (p.length + 1) (c :: p) :=
        wordTail_line (p := c :: p) (by simp) (by simp) ht
      rw [List.cons_append, Lexeme.word, Lexeme.word, hescape, htail]
  le cs := by
    cases cs with
    | nil => exact Nat.le_refl 0
    | cons c cs =>
      rw [Lexeme.word]
      split
      · exact wordTail_le _ _
      · exact Nat.zero_le _

/-! ### Numbers -/

/-- Digits are no ends of a line, and no low lines either. -/
structure Digital (f : Char → Bool) : Prop where
  breaking : Breaking f
  line : f '_' = false

section Digits

variable {f : Char → Bool}

/-- What stands behind is neither a digit nor a low line. -/
theorem EndsLine.not_digit (ht : EndsLine t) (hf : Digital f) : ∀ c ∈ t.head?, f c = false ∧ c ≠ '_' := by
  intro c hc
  rcases ht c hc with rfl | rfl
  · exact ⟨hf.breaking.1, by decide⟩
  · exact ⟨hf.breaking.2, by decide⟩

theorem digitTail_of_not {c : Char} (hc : f c = false)
    (hcs : (∀ d ∈ cs.head?, f d = false) ∨ c ≠ '_') : Lexeme.digitTail f (c :: cs) = 0 := by
  rw [Lexeme.digitTail.eq_def]
  split
  · rename_i d ds heq
    obtain ⟨rfl, rfl⟩ := List.cons.inj heq
    rw [hcs.resolve_right (fun hne => hne rfl) d rfl, if_neg Bool.false_ne_true]
  · rename_i heq
    obtain ⟨rfl, rfl⟩ := List.cons.inj heq
    rw [hc, if_neg Bool.false_ne_true]
  · rfl

/-- Digits end before what is neither a digit nor a low line. -/
theorem digitTail_behind (hline : f '_' = false) (ht : ∀ c ∈ t.head?, f c = false ∧ c ≠ '_') :
    Lexeme.digitTail f (p ++ t) = Lexeme.digitTail f p := by
  induction p using Lexeme.digitTail.induct f with
  | case1 d p hd ih =>
    show Lexeme.digitTail f ('_' :: d :: (p ++ t)) = _
    rw [Lexeme.digitTail, Lexeme.digitTail, if_pos hd, if_pos hd, ih]
  | case2 d p hd =>
    show Lexeme.digitTail f ('_' :: d :: (p ++ t)) = _
    rw [Lexeme.digitTail, Lexeme.digitTail, if_neg hd, if_neg hd]
  | case3 d p _ hd ih =>
    have hne : d ≠ '_' := by
      rintro rfl
      exact Bool.false_ne_true (hline.symm.trans hd)
    rw [List.cons_append, digitTail_cons hd hne, digitTail_cons hd hne, ih]
  | case4 d p hlines hd =>
    rw [Bool.not_eq_true] at hd
    have hlast {q : List Char} (hq : p = [] → ∀ c ∈ q.head?, f c = false) :
        (∀ c ∈ q.head?, f c = false) ∨ d ≠ '_' := by
      cases p with
      | nil => exact .inl (hq rfl)
      | cons x p => exact .inr fun hd => hlines x p hd rfl
    rw [List.cons_append, digitTail_of_not hd (hlast fun hp c hc => ?_),
      digitTail_of_not hd (hlast fun hp c hc => ?_)]
    · rw [hp] at hc
      cases hc
    · rw [hp] at hc
      exact (ht c hc).1
  | case5 => exact digitTail_eq_zero ht

theorem digits_behind (hline : f '_' = false) (ht : ∀ c ∈ t.head?, f c = false ∧ c ≠ '_') :
    Lexeme.digits f (p ++ t) = Lexeme.digits f p := by
  cases p with
  | nil =>
    cases t with
    | nil => rfl
    | cons c t =>
      show Lexeme.digits f (c :: t) = 0
      rw [Lexeme.digits, (ht c rfl).1, if_neg Bool.false_ne_true]
  | cons c p => rw [List.cons_append, Lexeme.digits, Lexeme.digits, digitTail_behind hline ht]

theorem digitTail_le (cs : List Char) : Lexeme.digitTail f cs ≤ cs.length := by
  induction cs using Lexeme.digitTail.induct f with
  | case1 d cs hd ih =>
    rw [Lexeme.digitTail, if_pos hd, List.length_cons, List.length_cons]
    omega
  | case2 d cs hd =>
    rw [Lexeme.digitTail, if_neg hd]
    exact Nat.zero_le _
  | case3 d cs hne hd ih =>
    rw [Lexeme.digitTail, if_pos hd, List.length_cons]
    · omega
    · exact hne
  | case4 d cs hne hd =>
    rw [Lexeme.digitTail, if_neg hd]
    · exact Nat.zero_le _
    · exact hne
  | case5 => exact Nat.le_refl 0

theorem inLine_digits (hf : Digital f) : InLine (Lexeme.digits f) where
  bounded _ _ ht := digits_behind hf.line (ht.not_digit hf)
  le cs := by
    cases cs with
    | nil => exact Nat.le_refl 0
    | cons c cs =>
      have := digitTail_le (f := f) cs
      rw [Lexeme.digits]
      split
      · rw [List.length_cons]
        omega
      · exact Nat.zero_le _

end Digits

theorem digital_decimal : Digital Char.isDigit := ⟨by decide, by decide⟩

theorem exponent_of_endsLine (ht : EndsLine t) : Lexeme.exponent t = 0 := by
  unfold Lexeme.exponent
  split
  · have he := ht.ne (x := 'e') (by decide)
    have hE := ht.ne (x := 'E') (by decide)
    simp [he, hE]
  · rfl

theorem inLine_exponent : InLine Lexeme.exponent where
  bounded p t ht := by
    have hdigits := (inLine_digits digital_decimal).bounded
    rcases p with _ | ⟨e, _ | ⟨s, p⟩⟩
    · exact exponent_of_endsLine ht
    · cases t with
      | nil => rfl
      | cons s t =>
        have hnone : Lexeme.digits Char.isDigit (s :: t) = 0 := hdigits [] (s :: t) ht
        have hplus := ht.ne (x := '+') (by decide)
        have hminus := ht.ne (x := '-') (by decide)
        show Lexeme.exponent (e :: s :: t) = 0
        simp [Lexeme.exponent, hplus, hminus, hnone]
    · have hs : Lexeme.digits Char.isDigit (s :: (p ++ t)) = Lexeme.digits Char.isDigit (s :: p) :=
        hdigits (s :: p) t ht
      show Lexeme.exponent (e :: s :: (p ++ t)) = _
      rw [Lexeme.exponent, Lexeme.exponent, hdigits p t ht, hs]
  le cs := by
    have hle := (inLine_digits digital_decimal).le
    unfold Lexeme.exponent
    split
    · rename_i e s cs
      have := hle cs
      have := hle (s :: cs)
      simp only [List.length_cons] at this ⊢
      grind
    · exact Nat.zero_le _

theorem inLine_fraction : InLine Lexeme.fraction where
  bounded p t ht := by
    have hdigits := inLine_digits digital_decimal
    unfold Lexeme.fraction
    simp only [hdigits.bounded p t ht, List.drop_append_of_le_length (hdigits.le p),
      inLine_exponent.bounded _ t ht]
  le cs := by
    have hdigits := (inLine_digits digital_decimal).le cs
    have hexponent := inLine_exponent.le (cs.drop (Lexeme.digits Char.isDigit cs))
    rw [List.length_drop] at hexponent
    show Lexeme.digits Char.isDigit cs +
      Lexeme.exponent (cs.drop (Lexeme.digits Char.isDigit cs)) ≤ cs.length
    omega

/-- The fraction that a number may begin with. -/
def pointed : List Char → Nat
  | '.' :: d :: ds => if d.isDigit then 1 + Lexeme.fraction (d :: ds) else 0
  | _ => 0

theorem pointed_of_ne (h : c ≠ '.') (cs : List Char) : pointed (c :: cs) = 0 := by
  unfold pointed
  split
  · rename_i heq
    exact absurd (List.cons.inj heq).1 h
  · rfl

theorem inLine_pointed : InLine pointed where
  bounded p t ht := by
    cases p with
    | nil =>
      cases t with
      | nil => rfl
      | cons c t => exact pointed_of_ne (ht.ne (by decide)) t
    | cons x p =>
      rw [List.cons_append]
      by_cases hx : x = '.'
      · subst hx
        cases p with
        | nil =>
          cases t with
          | nil => rfl
          | cons d t =>
            show (if d.isDigit then 1 + Lexeme.fraction (d :: t) else 0) = 0
            rw [ht.not digital_decimal.breaking, if_neg Bool.false_ne_true]
        | cons d p =>
          have hfraction : Lexeme.fraction (d :: (p ++ t)) = Lexeme.fraction (d :: p) :=
            inLine_fraction.bounded (d :: p) t ht
          show (if d.isDigit then 1 + Lexeme.fraction (d :: (p ++ t)) else 0) =
            if d.isDigit then 1 + Lexeme.fraction (d :: p) else 0
          rw [hfraction]
      · rw [pointed_of_ne hx, pointed_of_ne hx]
  le cs := by
    unfold pointed
    split
    · rename_i d ds
      have hle := inLine_fraction.le (d :: ds)
      split
      · rw [List.length_cons]
        omega
      · exact Nat.zero_le _
    · exact Nat.zero_le _

/-- How far a number reaches with these digits at its front. -/
def decimalFrom (cs : List Char) (n : Nat) : Nat :=
  if n = 0 then pointed cs
  else if Lexeme.isWholePart (cs.take n) && (cs.drop n).head? == some '.' then
    n + 1 + Lexeme.fraction ((cs.drop n).drop 1)
  else if Lexeme.isWholePart (cs.take n) && Lexeme.exponent (cs.drop n) != 0 then
    n + Lexeme.exponent (cs.drop n)
  else if (cs.drop n).head? == some 'n' then n + 1
  else n

theorem decimal_eq (cs : List Char) :
    Lexeme.decimal cs = decimalFrom cs (Lexeme.digits Char.isDigit cs) := by
  unfold Lexeme.decimal decimalFrom pointed
  rfl

theorem length_pos_of_head? {x : Char} (h : (cs.head? == some x) = true) : 0 < cs.length := by
  cases cs with
  | nil => cases h
  | cons c cs => exact Nat.succ_pos _

theorem inLine_decimal : InLine Lexeme.decimal where
  bounded p t ht := by
    have hdigits := inLine_digits digital_decimal
    rw [decimal_eq, decimal_eq, hdigits.bounded p t ht]
    generalize hn : Lexeme.digits Char.isDigit p = n
    have hle : n ≤ p.length := hn ▸ hdigits.le p
    have hpoint : ((p.drop n ++ t).head? == some '.') = ((p.drop n).head? == some '.') :=
      bounded_head '.' (by decide) (p.drop n) t ht
    have hbig : ((p.drop n ++ t).head? == some 'n') = ((p.drop n).head? == some 'n') :=
      bounded_head 'n' (by decide) (p.drop n) t ht
    unfold decimalFrom
    rw [inLine_pointed.bounded p t ht, List.take_append_of_le_length hle,
      List.drop_append_of_le_length hle, hpoint, hbig, inLine_exponent.bounded _ t ht]
    by_cases hfront : ((p.drop n).head? == some '.') = true
    · have hlength := length_pos_of_head? hfront
      rw [List.drop_append_of_le_length (Nat.succ_le_of_lt hlength), inLine_fraction.bounded _ t ht]
    · rw [Bool.not_eq_true] at hfront
      simp only [hfront, Bool.and_false, Bool.false_eq_true, if_false]
  le cs := by
    have hdigits := (inLine_digits digital_decimal).le cs
    rw [decimal_eq]
    generalize Lexeme.digits Char.isDigit cs = n at hdigits ⊢
    have hpointed := inLine_pointed.le cs
    have hexponent := inLine_exponent.le (cs.drop n)
    have hfraction := inLine_fraction.le ((cs.drop n).drop 1)
    have hfront {x : Char} (h : ((cs.drop n).head? == some x) = true) : n + 1 ≤ cs.length := by
      have := length_pos_of_head? h
      rw [List.length_drop] at this
      omega
    rw [List.length_drop] at hexponent
    rw [List.length_drop, List.length_drop] at hfraction
    unfold decimalFrom
    split
    · exact hpointed
    split
    · rename_i h
      have := hfront (Bool.and_eq_true_iff.mp h).2
      omega
    split
    · omega
    split
    · rename_i h
      exact hfront h
    · exact hdigits

section Radix

variable {f : Char → Bool}

theorem bounded_radixDigits (hf : Digital f) : Bounded (Lexeme.radixDigits f) := by
  intro p t ht
  have hdigits := inLine_digits hf
  have hbig : ((p.drop (Lexeme.digits f p) ++ t).head? == some 'n') =
      ((p.drop (Lexeme.digits f p)).head? == some 'n') :=
    bounded_head 'n' (by decide) _ t ht
  unfold Lexeme.radixDigits
  simp only [hdigits.bounded p t ht, List.drop_append_of_le_length (hdigits.le p), hbig]

/-- The digits stand behind two characters. -/
theorem radixDigits_le (hf : Digital f) (cs : List Char) : Lexeme.radixDigits f cs ≤ cs.length + 2 := by
  have hle := (inLine_digits hf).le cs
  unfold Lexeme.radixDigits
  simp only
  split
  · omega
  split
  · rename_i h
    have := length_pos_of_head? h
    rw [List.length_drop] at this
    omega
  · omega

end Radix

theorem inLine_number : InLine Lexeme.number where
  bounded p t ht := by
    have hhex := bounded_radixDigits (f := Lexeme.isHex) ⟨by decide, by decide⟩
    have hoctal := bounded_radixDigits (f := Lexeme.isOctal) ⟨by decide, by decide⟩
    have hbinary := bounded_radixDigits (f := Lexeme.isBinary) ⟨by decide, by decide⟩
    have hmarks (m : Char) (h : m = '\n' ∨ m = '\r') : m ∉ ['x', 'X', 'o', 'O', 'b', 'B'] := by
      rcases h with rfl | rfl <;> decide
    by_cases hzero : ∃ m q, p = '0' :: m :: q
    · obtain ⟨m, q, rfl⟩ := hzero
      have hdecimal : Lexeme.decimal ('0' :: m :: (q ++ t)) = Lexeme.decimal ('0' :: m :: q) :=
        inLine_decimal.bounded ('0' :: m :: q) t ht
      show Lexeme.number ('0' :: m :: (q ++ t)) = _
      rw [Lexeme.number, Lexeme.number, hhex q t ht, hoctal q t ht, hbinary q t ht, hdecimal]
    · rw [number_eq_decimal, number_eq_decimal, inLine_decimal.bounded p t ht]
      · rintro q rfl c hc
        cases q with
        | nil => cases hc
        | cons m q => exact absurd ⟨m, q, rfl⟩ hzero
      · intro q hq c hc
        rcases p with _ | ⟨x, _ | ⟨m, p⟩⟩
        · subst hq
          exact absurd rfl (ht.ne (by decide))
        · obtain ⟨rfl, rfl⟩ := List.cons.inj hq
          exact hmarks c (ht c hc)
        · obtain ⟨rfl, -⟩ := List.cons.inj hq
          exact absurd ⟨m, p, rfl⟩ hzero
  le cs := by
    rw [Lexeme.number.eq_def]
    split
    · rename_i m cs
      have hhex := radixDigits_le (f := Lexeme.isHex) ⟨by decide, by decide⟩ cs
      have hoctal := radixDigits_le (f := Lexeme.isOctal) ⟨by decide, by decide⟩ cs
      have hbinary := radixDigits_le (f := Lexeme.isBinary) ⟨by decide, by decide⟩ cs
      have hdecimal := inLine_decimal.le ('0' :: m :: cs)
      simp only [List.length_cons] at hdecimal ⊢
      split
      · exact hhex
      split
      · exact hoctal
      split
      · exact hbinary
      · exact hdecimal
    · exact inLine_decimal.le _

theorem bounded_startsProperty : Bounded startsProperty := by
  intro p t ht
  have hword := inLine_word.bounded p t ht
  have hnumber := inLine_number.bounded p t ht
  cases p with
  | nil =>
    cases t with
    | nil => rfl
    | cons c t =>
      have hsigns : "\x22\x27[#".toList.contains c = false := by
        rcases ht c rfl with rfl | rfl <;> decide
      show startsProperty (c :: t) = false
      have hword : Lexeme.word (c :: t) = 0 := hword
      have hnumber : Lexeme.number (c :: t) = 0 := hnumber
      simp only [startsProperty, hword, hnumber, hsigns]
      rfl
  | cons c p =>
    have hword : Lexeme.word (c :: (p ++ t)) = Lexeme.word (c :: p) := hword
    have hnumber : Lexeme.number (c :: (p ++ t)) = Lexeme.number (c :: p) := hnumber
    simp only [List.cons_append, startsProperty, hword, hnumber]

/-! ### Quoted text -/

theorem inLine_fragment (quote : Char) : InLine (Lexeme.fragment quote) :=
  inLine_takeWhile (by simp [Breaking])

theorem EndsLine.take (h : EndsLine t) (n : Nat) : EndsLine (t.take n) := by
  intro c hc
  cases t with
  | nil =>
    rw [List.take_nil] at hc
    cases hc
  | cons x t =>
    cases n with
    | zero => cases hc
    | succ n => exact h c hc

/-- The length of the escape of a byte, with the digits ahead. -/
def byteEscape : List Char → Nat
  | a :: b :: _ => if Lexeme.isHex a && Lexeme.isHex b then 4 else 0
  | _ => 0

theorem escape_cons (c : Char) (cs : List Char) : Lexeme.escape ('\\' :: c :: cs) =
    if c == 'u' then Lexeme.unicodeEscape ('\\' :: c :: cs)
    else if c == 'x' then byteEscape cs
    else if Lexeme.isOctal c then 1 + ((c :: cs).take 3 |>.takeWhile Lexeme.isOctal).length
    else if (c == '\r' || c == '?') && (cs.head?.map Lexeme.isLineEnd).getD false then 3
    else 2 := by
  rw [Lexeme.escape.eq_def]
  rfl

theorem bounded_byteEscape : Bounded byteEscape := by
  intro p t ht
  rcases p with _ | ⟨a, _ | ⟨b, p⟩⟩
  · rcases t with _ | ⟨a, _ | ⟨b, t⟩⟩
    · rfl
    · rfl
    · show (if Lexeme.isHex a && Lexeme.isHex b then 4 else 0) = 0
      rw [ht.not breaking_isHex]
      rfl
  · cases t with
    | nil => rfl
    | cons b t =>
      show (if Lexeme.isHex a && Lexeme.isHex b then 4 else 0) = 0
      rw [ht.not breaking_isHex, Bool.and_false]
      rfl
  · rfl

theorem byteEscape_le (cs : List Char) : byteEscape cs ≤ cs.length + 2 := by
  rcases cs with _ | ⟨a, _ | ⟨b, cs⟩⟩
  · exact Nat.zero_le _
  · exact Nat.zero_le _
  · rw [byteEscape]
    split
    · rw [List.length_cons, List.length_cons]
      omega
    · exact Nat.zero_le _

/-- The escape of a character that is no part of the end of a line, and that takes none. -/
theorem escape_line (hc : c ∉ ['\n', '\r', '?']) (ht : EndsLine t) :
    Lexeme.escape ('\\' :: c :: (p ++ t)) = Lexeme.escape ('\\' :: c :: p) ∧
      Lexeme.escape ('\\' :: c :: p) ≤ p.length + 2 := by
  have hunicode : Lexeme.unicodeEscape ('\\' :: c :: (p ++ t)) =
      Lexeme.unicodeEscape ('\\' :: c :: p) := bounded_unicodeEscape ('\\' :: c :: p) t ht
  have hunicodeLe := unicodeEscape_le ('\\' :: c :: p)
  have hoctal : (((c :: (p ++ t)).take 3).takeWhile Lexeme.isOctal).length =
      (((c :: p).take 3).takeWhile Lexeme.isOctal).length := by
    rw [← List.cons_append, List.take_append,
      takeWhile_line (by decide) _ _ (ht.take _)]
  have hoctalLe : (((c :: p).take 3).takeWhile Lexeme.isOctal).length ≤ p.length + 1 :=
    ((List.takeWhile_prefix _).length_le).trans (List.length_take_le' _ _)
  simp only [List.mem_cons, List.not_mem_nil, or_false, not_or] at hc
  have hplain : (c == '\r' || c == '?') = false := by simp [hc]
  rw [escape_cons, escape_cons, hunicode, hoctal, hplain, bounded_byteEscape p t ht]
  simp only [List.length_cons] at hunicodeLe
  split
  · exact ⟨rfl, hunicodeLe⟩
  split
  · exact ⟨rfl, byteEscape_le p⟩
  split
  · exact ⟨rfl, by omega⟩
  · exact ⟨rfl, Nat.le_add_left 2 _⟩

theorem escape_of_ne (h : (cs.head? == some '\\') = false) : Lexeme.escape cs = 0 := by
  unfold Lexeme.escape
  split
  · cases h
  · rfl

end Workyard.Script
