import Mathlib.Tactic.FieldSimp
import Mathlib.Tactic.Ring
import Workyard.Options.Number
import Workyard.Proofs.Script.Numerals

/-!
# The numbers of numerals

What the digits of a spelling make, whatever low lines stand between them: an integer in each of the
bases, and a decimal with its exponent.
-/

namespace Workyard.Options

set_option autoImplicit false

open Decimal Json Script

variable {b : Base} {cs ws fs es : List Char} {c letter : Char} {n w f k : Nat} {e : Int}
  {negative : Bool}

/-- The characters of a number that stand for something. -/
def figures (cs : List Char) : List Char :=
  cs.filter (· ≠ '_')

/-! ### Figures -/

theorem figures_append (cs ds : List Char) : figures (cs ++ ds) = figures cs ++ figures ds :=
  List.filter_append ..

theorem figures_cons (hc : c ≠ '_') : figures (c :: cs) = c :: figures cs :=
  List.filter_cons_of_pos (by simpa using hc)

theorem figures_run {radix : Nat} (h : Run radix cs n) :
    ∀ c ∈ figures cs, ∃ d, IsDigit radix c d := by
  intro c hc
  obtain ⟨hmem, hline⟩ := List.mem_filter.mp hc
  rcases h.chars.2 c hmem with rfl | hdigit
  · exact absurd hline (by decide)
  · exact hdigit

theorem figures_isDigit (h : Run 10 cs n) : ∀ c ∈ figures cs, c.isDigit = true := by
  intro c hc
  obtain ⟨d, hd⟩ := figures_run h c hc
  exact hd.ten_isDigit

theorem figures_ne_nil (h : Run b.radix cs n) : figures cs ≠ [] := by
  obtain ⟨⟨c, t, d, rfl, hc⟩, -⟩ := h.chars
  rw [figures_cons hc.apart.2]
  apply List.cons_ne_nil

/-! ### Integers -/

theorem naturalFrom?_append (radix acc : Nat) (cs ds : List Char) :
    naturalFrom? radix acc (cs ++ ds) =
      (naturalFrom? radix acc cs).bind fun m => naturalFrom? radix m ds := by
  induction cs generalizing acc with
  | nil => rfl
  | cons c cs ih =>
    rw [List.cons_append, naturalFrom?, naturalFrom?]
    cases digitValue? radix c with
    | none => rfl
    | some d => exact ih _

theorem digitValue?_eq_some {d : Nat} (h : IsDigit b.radix c d) : digitValue? b.radix c = some d := by
  have hall : ∀ d < b.radix, digitValue? b.radix (Nat.digitChar d) = some d ∧
      digitValue? b.radix (Nat.digitChar d).toUpper = some d := by
    cases b <;> decide
  obtain ⟨hlower, hupper⟩ := hall d h.lt
  rcases h.char with rfl | rfl
  · exact hlower
  · exact hupper

/-- The digits of a run come after those that were read before it. -/
theorem naturalFrom?_run (h : Run b.radix cs n) (acc : Nat) :
    naturalFrom? b.radix acc (figures cs) = some (acc * b.radix ^ places cs + n) := by
  have hone {m : Nat} {c : Char} {d : Nat} (hc : IsDigit b.radix c d) :
      naturalFrom? b.radix m (figures [c]) = some (m * b.radix + d) := by
    rw [figures_cons hc.apart.2]
    show naturalFrom? b.radix m [c] = _
    rw [naturalFrom?, digitValue?_eq_some hc]
    rfl
  have hplaces {cs ds : List Char} {c : Char} {d : Nat} (hds : figures ds = figures [c])
      (hc : IsDigit b.radix c d) : places (cs ++ ds) = places cs + 1 := by
    show (figures (cs ++ ds)).length = (figures cs).length + 1
    rw [figures_append, hds, figures_cons hc.apart.2, List.length_append]
    rfl
  have hsnoc {cs ds : List Char} {m : Nat} {c : Char} {d : Nat} (hds : figures ds = figures [c])
      (hc : IsDigit b.radix c d)
      (ih : naturalFrom? b.radix acc (figures cs) = some (acc * b.radix ^ places cs + m)) :
      naturalFrom? b.radix acc (figures (cs ++ ds)) =
        some (acc * b.radix ^ places (cs ++ ds) + (m * b.radix + d)) := by
    rw [figures_append, naturalFrom?_append, ih, Option.bind_some, hds, hone hc, hplaces hds hc,
      Nat.pow_succ, Nat.add_mul, Nat.mul_assoc, Nat.add_assoc]
  induction h with
  | one hc =>
    rw [hone hc, ← List.nil_append [_], hplaces rfl hc]
    show _ = some (acc * b.radix ^ 1 + _)
    rw [Nat.pow_one]
  | digit _ hc ih => exact hsnoc rfl hc ih
  | line _ hc ih => exact hsnoc rfl hc ih

theorem natural?_run (h : Run b.radix cs n) : natural? b.radix (figures cs) = some n := by
  rw [natural?, if_neg (by simpa using figures_ne_nil h), naturalFrom?_run h, Nat.zero_mul,
    Nat.zero_add]

/-- The letters of the marks. -/
def markLetters : List Char :=
  ['x', 'X', 'o', 'O', 'b', 'B']

theorem radix?_unmarked (h : ∀ c ∈ cs, c ∉ markLetters) : radix? cs = none := by
  unfold radix?
  split
  · rename_i c t
    have hc := h c (List.mem_cons_of_mem _ List.mem_cons_self)
    simp only [markLetters, List.mem_cons, List.not_mem_nil, or_false, not_or] at hc
    simp [hc]
  · rfl

theorem unmarked_digits (h : ∀ c ∈ cs, c.isDigit = true) : ∀ c ∈ cs, c ∉ markLetters := by
  intro c hc hmem
  have hdigit := h c hc
  simp only [markLetters, List.mem_cons, List.not_mem_nil, or_false] at hmem
  rcases hmem with rfl | rfl | rfl | rfl | rfl | rfl <;> cases hdigit

theorem radix?_marked (hletter : letter ∈ b.letters) (cs : List Char) :
    radix? ('0' :: letter :: cs) = some (b.radix, cs) := by
  cases b with
  | decimal => cases hletter
  | binary =>
    simp only [Base.letters, List.mem_cons, List.not_mem_nil, or_false] at hletter
    rcases hletter with rfl | rfl
    · rfl
    · rfl
  | octal =>
    simp only [Base.letters, List.mem_cons, List.not_mem_nil, or_false] at hletter
    rcases hletter with rfl | rfl
    · rfl
    · rfl
  | hexadecimal =>
    simp only [Base.letters, List.mem_cons, List.not_mem_nil, or_false] at hletter
    rcases hletter with rfl | rfl
    · rfl
    · rfl

/-- A number under a mark has to fit with a sign. -/
theorem number?_marked (hletter : letter ∈ b.letters) (h : Run b.radix cs n) :
    number? negative (String.ofList ('0' :: letter :: cs)) = signedInteger? negative n := by
  have hline : letter ≠ '_' := by
    rintro rfl
    cases b <;> exact absurd hletter (by decide)
  have hfigures : figures ('0' :: letter :: cs) = '0' :: letter :: figures cs := by
    rw [figures_cons (by decide), figures_cons hline]
  have hread : radix? (figures (String.ofList ('0' :: letter :: cs)).toList) =
      some (b.radix, figures cs) := by
    rw [String.toList_ofList, hfigures, radix?_marked hletter]
  rw [number?, ← figures, hread]
  show (natural? b.radix (figures cs)).bind (signedInteger? negative) = _
  rw [natural?_run h, Option.bind_some]

/-! ### Decimals -/

theorem exponent?_eq_some (h : Exponent es e) : exponent? (figures es) = some e := by
  have hletter {x : Char} (hx : x ∈ ['e', 'E']) : x ≠ '_' ∧ (x = 'e' || x = 'E') = true := by
    simp only [List.mem_cons, List.not_mem_nil, or_false] at hx
    rcases hx with rfl | rfl <;> decide
  have hten {cs : List Char} {n : Nat} (h : Run 10 cs n) : natural? 10 (figures cs) = some n :=
    natural?_run (b := .decimal) h
  cases h with
  | none => rfl
  | @bare x cs n hx h =>
    obtain ⟨c, t, heq⟩ := List.exists_cons_of_ne_nil (figures_ne_nil (b := .decimal) h)
    have hc : c.isDigit = true := figures_isDigit h c (heq ▸ List.mem_cons_self)
    have hsign : ∀ t', c :: t ≠ '-' :: t' ∧ c :: t ≠ '+' :: t' := by
      intro t'
      constructor
      · rintro ⟨⟩
        cases hc
      · rintro ⟨⟩
        cases hc
    have hnatural := hten h
    rw [heq] at hnatural
    rw [figures_cons (hletter hx).1, heq, exponent?, if_pos (hletter hx).2]
    · rw [hnatural]
      rfl
    · exact fun t' => (hsign t').1
    · exact fun t' => (hsign t').2
  | plus hx h =>
    rw [figures_cons (hletter hx).1, figures_cons (by decide), exponent?, if_pos (hletter hx).2]
    show (natural? 10 (figures _)).map Int.ofNat = _
    rw [hten h]
    rfl
  | minus hx h =>
    rw [figures_cons (hletter hx).1, figures_cons (by decide), exponent?, if_pos (hletter hx).2]
    show (natural? 10 (figures _)).map (fun n => -(n : Int)) = _
    rw [hten h]
    rfl

/-- An exponent begins with its letter. -/
theorem figures_exponent (h : Exponent es e) (hes : es ≠ []) :
    ∃ c t, figures es = c :: t ∧ (c = 'e' ∨ c = 'E') := by
  have hcons {x : Char} (cs : List Char) (hx : x ∈ ['e', 'E']) :
      ∃ c t, figures (x :: cs) = c :: t ∧ (c = 'e' ∨ c = 'E') := by
    simp only [List.mem_cons, List.not_mem_nil, or_false] at hx
    refine ⟨x, figures cs, figures_cons ?_, hx⟩
    rcases hx with rfl | rfl <;> decide
  cases h with
  | none => exact absurd rfl hes
  | bare hx => exact hcons _ hx
  | plus hx => exact hcons _ hx
  | minus hx => exact hcons _ hx

theorem head?_exponent (h : Exponent es e) : ∀ c ∈ (figures es).head?, c = 'e' ∨ c = 'E' := by
  by_cases hes : es = []
  · subst hes
    nofun
  · obtain ⟨c, t, heq, hc⟩ := figures_exponent h hes
    intro x hx
    rw [heq] at hx
    obtain rfl := Option.some.inj hx
    exact hc

theorem unmarked_exponent (h : Exponent es e) : ∀ c ∈ figures es, c ∉ markLetters := by
  have hsigns {x : Char} (hx : x ∈ ['e', 'E', '+', '-']) : x ≠ '_' ∧ x ∉ markLetters := by
    simp only [List.mem_cons, List.not_mem_nil, or_false] at hx
    rcases hx with rfl | rfl | rfl | rfl <;> decide
  have hletter {x : Char} (hx : x ∈ ['e', 'E']) : x ∈ ['e', 'E', '+', '-'] := by
    simp only [List.mem_cons, List.not_mem_nil, or_false] at hx ⊢
    exact hx.elim .inl fun hx => .inr (.inl hx)
  have hcons {x : Char} {cs : List Char} (hx : x ∈ ['e', 'E', '+', '-'])
      (h : ∀ c ∈ figures cs, c ∉ markLetters) : ∀ c ∈ figures (x :: cs), c ∉ markLetters := by
    rw [figures_cons (hsigns hx).1]
    exact List.forall_mem_cons.mpr ⟨(hsigns hx).2, h⟩
  cases h with
  | none => nofun
  | bare hx h => exact hcons (hletter hx) (unmarked_digits (figures_isDigit h))
  | plus hx h => exact hcons (hletter hx) (hcons (by decide) (unmarked_digits (figures_isDigit h)))
  | minus hx h => exact hcons (hletter hx) (hcons (by decide) (unmarked_digits (figures_isDigit h)))

/-- Digits up to something else. -/
theorem span_digits {rest : List Char} (hcs : ∀ c ∈ cs, c.isDigit = true)
    (hrest : ∀ c ∈ rest.head?, c.isDigit = false) :
    (cs ++ rest).takeWhile Char.isDigit = cs ∧ (cs ++ rest).dropWhile Char.isDigit = rest := by
  have hstop : rest.takeWhile Char.isDigit = [] ∧ rest.dropWhile Char.isDigit = rest := by
    cases rest with
    | nil => exact ⟨rfl, rfl⟩
    | cons c rest => simp [hrest c rfl]
  rw [List.takeWhile_append_of_pos hcs, List.dropWhile_append_of_pos hcs, hstop.1, hstop.2,
    List.append_nil]
  exact ⟨rfl, rfl⟩

/-- Without a point the fraction has no digits. -/
theorem real?_bare (hws : ∀ c ∈ ws, c.isDigit = true) (hn : natural? 10 ws = some n)
    (he : exponent? es = some e) (hes : ∀ c ∈ es.head?, c = 'e' ∨ c = 'E') :
    real? negative (ws ++ es) = Binary64.ofDecimal? negative n e := by
  have hstop : ∀ c ∈ es.head?, c.isDigit = false := by
    intro c hc
    rcases hes c hc with rfl | rfl <;> rfl
  obtain ⟨htake, hdrop⟩ := span_digits hws hstop
  unfold real?
  simp only [htake, hdrop]
  split
  · rename_i t
    rcases hes '.' rfl with h | h <;> cases h
  · simp [hn, he]

theorem real?_point (hws : ∀ c ∈ ws, c.isDigit = true) (hfs : ∀ c ∈ fs, c.isDigit = true)
    (hn : natural? 10 (ws ++ fs) = some n) (he : exponent? es = some e)
    (hes : ∀ c ∈ es.head?, c = 'e' ∨ c = 'E') :
    real? negative (ws ++ '.' :: (fs ++ es)) = Binary64.ofDecimal? negative n (e - fs.length) := by
  have hstop : ∀ c ∈ es.head?, c.isDigit = false := by
    intro c hc
    rcases hes c hc with rfl | rfl <;> rfl
  have hpoint : ∀ c ∈ ('.' :: (fs ++ es)).head?, c.isDigit = false := by
    intro c hc
    obtain rfl := Option.some.inj hc
    rfl
  obtain ⟨htake, hdrop⟩ := span_digits hws hpoint
  obtain ⟨htake', hdrop'⟩ := span_digits hfs hstop
  unfold real?
  simp only [htake, hdrop, htake', hdrop', hn, he]
  rfl

/-! ### Numbers -/

/-- A number without a mark. -/
theorem number?_plain (h : radix? (figures cs) = none) :
    number? negative (String.ofList cs) =
      (integer? negative (figures cs) <|> (real? negative (figures cs)).map .real) := by
  have hread : radix? (figures (String.ofList cs).toList) = none := by
    rw [String.toList_ofList, h]
  rw [number?, ← figures, hread, String.toList_ofList]

theorem isReal_digits (h : ∀ c ∈ cs, c.isDigit = true) : isReal cs = false := by
  rw [isReal, List.any_eq_false]
  intro c hc hsign
  have hdigit := h c hc
  simp only [Bool.or_eq_true, decide_eq_true_eq] at hsign
  rcases hsign with (rfl | rfl) | rfl <;> cases hdigit

/-- A number in base ten has to fit with its sign, or without one if it has none; what does not
becomes a binary number. -/
theorem number?_decimal (h : Run 10 cs n) :
    number? negative (String.ofList cs) =
      ((signedInteger? negative n <|> if negative then none else Number.ofInt? n) <|>
        (Binary64.ofDecimal? negative n 0).map .real) := by
  have hdigits := figures_isDigit h
  have hnatural : natural? 10 (figures cs) = some n := natural?_run (b := .decimal) h
  have hreal : real? negative (figures cs) = Binary64.ofDecimal? negative n 0 := by
    have hbare : real? negative (figures cs ++ []) = Binary64.ofDecimal? negative n 0 :=
      real?_bare hdigits hnatural rfl nofun
    rwa [List.append_nil] at hbare
  have hinteger : integer? negative (figures cs) =
      (signedInteger? negative n <|> if negative then none else Number.ofInt? n) := by
    rw [integer?, isReal_digits hdigits, if_neg Bool.false_ne_true, hnatural]
    rfl
  rw [number?_plain (radix?_unmarked (unmarked_digits hdigits)), hinteger, hreal]

/-- A number with a point or an exponent is rounded to a binary number. -/
theorem number?_of_isReal (h : ∀ c ∈ figures cs, c ∉ markLetters)
    (hreal : ∃ c ∈ figures cs, c = '.' ∨ c = 'e' ∨ c = 'E') :
    number? negative (String.ofList cs) = (real? negative (figures cs)).map .real := by
  have hisReal : isReal (figures cs) = true := by
    obtain ⟨c, hc, hsign⟩ := hreal
    rw [isReal, List.any_eq_true]
    refine ⟨c, hc, ?_⟩
    simpa [or_assoc] using hsign
  rw [number?_plain (radix?_unmarked h), integer?, if_pos hisReal]
  rfl

theorem number?_exponent (hw : Run 10 ws w) (he : Exponent es e) (hes : es ≠ []) :
    number? negative (String.ofList (ws ++ es)) = (Binary64.ofDecimal? negative w e).map .real := by
  have hdigits := figures_isDigit hw
  obtain ⟨x, t, heq, hx⟩ := figures_exponent he hes
  have hunmarked : ∀ c ∈ figures (ws ++ es), c ∉ markLetters := by
    rw [figures_append, List.forall_mem_append]
    exact ⟨unmarked_digits hdigits, unmarked_exponent he⟩
  have hreal : ∃ c ∈ figures (ws ++ es), c = '.' ∨ c = 'e' ∨ c = 'E' := by
    rw [figures_append, heq]
    exact ⟨x, List.mem_append_right _ List.mem_cons_self, .inr hx⟩
  rw [number?_of_isReal hunmarked hreal, figures_append,
    real?_bare hdigits (natural?_run (b := .decimal) hw) (exponent?_eq_some he) (head?_exponent he)]

/-- The digits of a fraction come after those of the whole part, and move the point. -/
theorem number?_point (ws : List Char) (hws : ∀ c ∈ figures ws, c.isDigit = true)
    (hfs : ∀ c ∈ figures fs, c.isDigit = true)
    (hn : natural? 10 (figures ws ++ figures fs) = some n) (he : Exponent es e) :
    number? negative (String.ofList (ws ++ '.' :: (fs ++ es))) =
      (Binary64.ofDecimal? negative n (e - places fs)).map .real := by
  have hfigures : figures (ws ++ '.' :: (fs ++ es)) =
      figures ws ++ '.' :: (figures fs ++ figures es) := by
    rw [figures_append, figures_cons (by decide), figures_append]
  have hunmarked : ∀ c ∈ figures (ws ++ '.' :: (fs ++ es)), c ∉ markLetters := by
    rw [hfigures, List.forall_mem_append, List.forall_mem_cons, List.forall_mem_append]
    exact ⟨unmarked_digits hws, by decide, unmarked_digits hfs, unmarked_exponent he⟩
  have hreal : ∃ c ∈ figures (ws ++ '.' :: (fs ++ es)), c = '.' ∨ c = 'e' ∨ c = 'E' := by
    rw [hfigures]
    exact ⟨'.', List.mem_append_right _ List.mem_cons_self, .inl rfl⟩
  rw [number?_of_isReal hunmarked hreal, hfigures,
    real?_point hws hfs hn (exponent?_eq_some he) (head?_exponent he)]
  rfl

theorem natural?_append (hw : Run 10 ws w) (hf : Run 10 fs f) :
    natural? 10 (figures ws ++ figures fs) = some (w * 10 ^ places fs + f) := by
  have hne : figures ws ++ figures fs ≠ [] :=
    List.append_ne_nil_of_left_ne_nil (figures_ne_nil (b := .decimal) hw) _
  have hws := naturalFrom?_run (b := .decimal) hw 0
  have hfs := naturalFrom?_run (b := .decimal) hf w
  rw [Nat.zero_mul, Nat.zero_add] at hws
  rw [natural?, if_neg (by simpa using hne), naturalFrom?_append]
  show (naturalFrom? Base.decimal.radix 0 (figures ws)).bind _ = _
  rw [hws, Option.bind_some]
  exact hfs

/-- A numeral is digits only, or it is rounded to a binary number. -/
theorem number?_numeral {v : ℚ} (negative : Bool) (h : Numeral cs v) :
    (∃ n : Nat, Whole cs n ∧ v = n) ∨
      ∃ (n : Nat) (e : Int), v = n * 10 ^ e ∧
        number? negative (String.ofList cs) = (Binary64.ofDecimal? negative n e).map .real := by
  have hshift (e : Int) (k : Nat) : (10 : ℚ) ^ (e - k) = 10 ^ e / 10 ^ k := by
    rw [zpow_sub₀ (by norm_num), zpow_natCast]
  cases h with
  | @whole ws fs es w f k e hw hf he =>
    have hdigits := figures_isDigit hw.run
    cases hf with
    | none =>
      by_cases hes : es = []
      · subst hes
        cases he
        left
        exact ⟨w, by simpa using hw, by simp⟩
      · right
        exact ⟨w, e, by simp, number?_exponent hw.run he hes⟩
    | point =>
      right
      have hn : natural? 10 (figures ws ++ figures []) = some w := by
        rw [show figures [] = [] from rfl, List.append_nil]
        exact natural?_run (b := .decimal) hw.run
      exact ⟨w, e - places [], by simp [places], number?_point _ hdigits nofun hn he⟩
    | @digits fs f hf =>
      right
      refine ⟨_, e - places fs, ?_, number?_point _ hdigits (figures_isDigit hf)
        (natural?_append hw.run hf) he⟩
      rw [hshift]
      push_cast
      field_simp
  | @fraction fs es f e hf he =>
    right
    refine ⟨f, e - places fs, ?_, ?_⟩
    · rw [hshift]
      ring
    · exact number?_point [] nofun (figures_isDigit hf) (natural?_run (b := .decimal) hf) he

end Workyard.Options
