import Mathlib.Algebra.Order.Field.Power
import Mathlib.Data.Rat.Cast.Order
import Workyard.Script.Lexeme

/-!
# Numerals

How the numbers of a script are spelled: integers in one of four bases, and numerals in base ten with a
fraction and an exponent. A low line may stand between two digits. Each of them is one token, wherever
no letter, digit or point comes after it.
-/

namespace Workyard.Script

set_option autoImplicit false

/-- The bases in which integers are spelled. -/
inductive Base where
  | binary | octal | decimal | hexadecimal
  deriving DecidableEq

namespace Base

def radix : Base → Nat
  | binary => 2
  | octal => 8
  | decimal => 10
  | hexadecimal => 16

/-- The letters that stand between a zero and the digits. -/
def letters : Base → List Char
  | binary => ['b', 'B']
  | octal => ['o', 'O']
  | decimal => []
  | hexadecimal => ['x', 'X']

end Base

/-- A digit in either case, with its value. -/
structure IsDigit (radix : Nat) (c : Char) (d : Nat) : Prop where
  lt : d < radix
  char : c = Nat.digitChar d ∨ c = (Nat.digitChar d).toUpper

/-- Digits between two of which a low line may stand, with the number that they make. -/
inductive Run (radix : Nat) : List Char → Nat → Prop
  | one {c d} (hc : IsDigit radix c d) : Run radix [c] d
  | digit {cs n c d} (h : Run radix cs n) (hc : IsDigit radix c d) :
      Run radix (cs ++ [c]) (n * radix + d)
  | line {cs n c d} (h : Run radix cs n) (hc : IsDigit radix c d) :
      Run radix (cs ++ ['_', c]) (n * radix + d)

/-- How many digits there are in a run. -/
def places (cs : List Char) : Nat :=
  (cs.filter (· ≠ '_')).length

/-- A run in base ten in which no zero stands before other digits. -/
structure Whole (cs : List Char) (n : Nat) : Prop where
  run : Run 10 cs n
  head : cs = ['0'] ∨ cs.head? ≠ some '0'

/-- The spellings of a natural number. -/
inductive Natural : Base → List Char → Nat → Prop
  | decimal {cs n} (h : Whole cs n) : Natural .decimal cs n
  | marked {b : Base} {letter cs n} (hletter : letter ∈ b.letters) (h : Run b.radix cs n) :
      Natural b ('0' :: letter :: cs) n

/-- The spellings of an integer. A minus sign stands before it just when it is negative. -/
inductive Spelled (b : Base) : List Char → Int → Prop
  | bare {cs n} (h : Natural b cs n) : Spelled b cs n
  | plus {cs n} (h : Natural b cs n) : Spelled b ('+' :: cs) n
  | minus {cs n} (h : Natural b cs n) (hn : n ≠ 0) : Spelled b ('-' :: cs) (-n)

/-- A fraction with the number that its digits make and how many there are. -/
inductive Fraction : List Char → Nat → Nat → Prop
  | none : Fraction [] 0 0
  | point : Fraction ['.'] 0 0
  | digits {cs n} (h : Run 10 cs n) : Fraction ('.' :: cs) n (places cs)

inductive Exponent : List Char → Int → Prop
  | none : Exponent [] 0
  | bare {e cs n} (he : e ∈ ['e', 'E']) (h : Run 10 cs n) : Exponent (e :: cs) n
  | plus {e cs n} (he : e ∈ ['e', 'E']) (h : Run 10 cs n) : Exponent (e :: '+' :: cs) n
  | minus {e cs n} (he : e ∈ ['e', 'E']) (h : Run 10 cs n) : Exponent (e :: '-' :: cs) (-n)

/-- The numerals in base ten, with a whole part or a fraction that has digits. -/
inductive Numeral : List Char → ℚ → Prop
  | whole {ws fs es w f k e} (hw : Whole ws w) (hf : Fraction fs f k) (he : Exponent es e) :
      Numeral (ws ++ (fs ++ es)) ((w + f / 10 ^ k) * 10 ^ e)
  | fraction {fs es f e} (hf : Run 10 fs f) (he : Exponent es e) :
      Numeral ('.' :: (fs ++ es)) (f / 10 ^ places fs * 10 ^ e)

/-- What may come right after a number: neither a point nor what a word may hold. -/
def Closes (cs : List Char) : Prop :=
  ∀ c ∈ cs.head?, Lexeme.isWordPart c = false ∧ c ≠ '.'

/-! ### Digits -/

namespace Base

def isDigit : Base → Char → Bool
  | binary => Lexeme.isBinary
  | octal => Lexeme.isOctal
  | decimal => Char.isDigit
  | hexadecimal => Lexeme.isHex

end Base

variable {b : Base} {cs rest fs es : List Char} {c : Char} {n d : Nat}

/-- A property of all digits of a base is one of its small numbers. -/
theorem IsDigit.induction {P : Char → Prop} (b : Base)
    (h : ∀ d < b.radix, P (Nat.digitChar d) ∧ P (Nat.digitChar d).toUpper) (hc : IsDigit b.radix c d) :
    P c := by
  obtain ⟨hlower, hupper⟩ := h d hc.lt
  rcases hc.char with rfl | rfl
  · exact hlower
  · exact hupper

theorem IsDigit.isDigit (hc : IsDigit b.radix c d) : b.isDigit c = true := by
  refine IsDigit.induction (P := fun c => b.isDigit c = true) b ?_ hc
  cases b <;> decide

theorem IsDigit.ten_isDigit (hc : IsDigit 10 c d) : c.isDigit = true :=
  IsDigit.isDigit (b := .decimal) hc

/-- Digits may stand in a word, and no other sign of a numeral is one of them. -/
theorem IsDigit.apart (hc : IsDigit b.radix c d) : Lexeme.isWordPart c = true ∧ c ≠ '_' := by
  refine IsDigit.induction (P := fun c => Lexeme.isWordPart c = true ∧ c ≠ '_') b ?_ hc
  cases b <;> decide

theorem isWordPart_of_isHex (h : Lexeme.isHex c = true) : Lexeme.isWordPart c = true := by
  have hsmall : ∀ k < 128, Lexeme.isHex (Char.ofNat k) = true →
      Lexeme.isWordPart (Char.ofNat k) = true := by decide
  have hlt : c.toNat < 128 := by
    simp only [Lexeme.isHex, Char.isDigit, Bool.or_eq_true, Bool.and_eq_true, decide_eq_true_eq] at h
    rcases h with (h | h) | h
    · have hle : c.toNat ≤ 57 := h.2
      omega
    · have hle : c.toNat ≤ 102 := h.2
      omega
    · have hle : c.toNat ≤ 70 := h.2
      omega
  have hc := hsmall c.toNat hlt
  rw [Char.ofNat_toNat] at hc
  exact hc h

theorem isHex_of_isDigit (h : b.isDigit c = true) : Lexeme.isHex c = true := by
  have hten : ∀ x : Char, x.isDigit = true → Lexeme.isHex x = true := by
    intro x hx
    rw [Lexeme.isHex, hx]
    rfl
  cases b with
  | binary =>
    simp only [Base.isDigit, Lexeme.isBinary, Bool.or_eq_true, beq_iff_eq] at h
    rcases h with rfl | rfl
    · rfl
    · rfl
  | octal =>
    apply hten
    simp only [Base.isDigit, Lexeme.isOctal, Bool.and_eq_true, decide_eq_true_eq] at h
    have hle : c.toNat ≤ 55 := h.2
    simp only [Char.isDigit, Bool.and_eq_true, decide_eq_true_eq]
    refine ⟨h.1, ?_⟩
    show c.toNat ≤ 57
    omega
  | decimal => exact hten c h
  | hexadecimal => exact h

theorem Closes.not_isDigit (h : Closes rest) : ∀ c ∈ rest.head?, b.isDigit c = false ∧ c ≠ '_' := by
  intro c hc
  obtain ⟨hpart, -⟩ := h c hc
  constructor
  · by_contra hdigit
    rw [Bool.not_eq_false] at hdigit
    rw [isWordPart_of_isHex (isHex_of_isDigit hdigit)] at hpart
    exact absurd hpart (by decide)
  · rintro rfl
    exact absurd hpart (by decide)

/-! ### Runs -/

theorem digitTail_cons {isDigit : Char → Bool} (hc : isDigit c = true) (hline : c ≠ '_') :
    Lexeme.digitTail isDigit (c :: rest) = 1 + Lexeme.digitTail isDigit rest := by
  rw [Lexeme.digitTail.eq_def]
  split
  · rename_i heq
    exact absurd (List.cons.inj heq).1 hline
  · rename_i heq
    obtain ⟨rfl, rfl⟩ := List.cons.inj heq
    exact if_pos hc
  · rename_i heq
    cases heq

theorem digitTail_eq_zero {isDigit : Char → Bool}
    (h : ∀ c ∈ rest.head?, isDigit c = false ∧ c ≠ '_') : Lexeme.digitTail isDigit rest = 0 := by
  cases rest with
  | nil => rfl
  | cons c rest =>
    obtain ⟨hc, hline⟩ := h c rfl
    rw [Lexeme.digitTail.eq_def]
    split
    · rename_i heq
      exact absurd (List.cons.inj heq).1 hline
    · rename_i heq
      obtain ⟨rfl, rfl⟩ := List.cons.inj heq
      exact if_neg (by rw [hc]; decide)
    · rfl

theorem digits_append (h : Run b.radix cs n) (rest : List Char) :
    Lexeme.digits b.isDigit (cs ++ rest) = cs.length + Lexeme.digitTail b.isDigit rest := by
  induction h generalizing rest with
  | one hc =>
    rw [List.singleton_append, Lexeme.digits, if_pos hc.isDigit]
    rfl
  | @digit cs n c d h hc ih =>
    rw [List.append_assoc, ih, List.singleton_append, digitTail_cons hc.isDigit hc.apart.2,
      List.length_append, List.length_singleton, Nat.add_assoc]
  | @line cs n c d h hc ih =>
    rw [List.append_assoc, ih, List.length_append]
    show cs.length + (if b.isDigit c then 2 + Lexeme.digitTail b.isDigit rest else 0) = _
    rw [if_pos hc.isDigit, List.length_cons, List.length_singleton, Nat.add_assoc]

/-- A run reaches as far as its digits do. -/
theorem digits_run (h : Run b.radix cs n) (hrest : ∀ c ∈ rest.head?, b.isDigit c = false ∧ c ≠ '_') :
    Lexeme.digits b.isDigit (cs ++ rest) = cs.length := by
  rw [digits_append h, digitTail_eq_zero hrest, Nat.add_zero]

/-- A run begins with a digit, and holds nothing but digits and low lines. -/
theorem Run.chars {radix : Nat} (h : Run radix cs n) : (∃ c t d, cs = c :: t ∧ IsDigit radix c d) ∧
    ∀ c ∈ cs, c = '_' ∨ ∃ d, IsDigit radix c d := by
  induction h with
  | one hc => exact ⟨⟨_, [], _, rfl, hc⟩, List.forall_mem_singleton.mpr (.inr ⟨_, hc⟩)⟩
  | digit _ hc ih =>
    obtain ⟨⟨c, t, d, rfl, hd⟩, hall⟩ := ih
    refine ⟨⟨c, _, d, List.cons_append, hd⟩, List.forall_mem_append.mpr ⟨hall, ?_⟩⟩
    exact List.forall_mem_singleton.mpr (.inr ⟨_, hc⟩)
  | line _ hc ih =>
    obtain ⟨⟨c, t, d, rfl, hd⟩, hall⟩ := ih
    refine ⟨⟨c, _, d, List.cons_append, hd⟩, List.forall_mem_append.mpr ⟨hall, ?_⟩⟩
    exact List.forall_mem_cons.mpr ⟨.inl rfl, List.forall_mem_singleton.mpr (.inr ⟨_, hc⟩)⟩

theorem Run.length_pos {radix : Nat} (h : Run radix cs n) : 0 < cs.length := by
  obtain ⟨⟨c, t, d, rfl, -⟩, -⟩ := h.chars
  exact Nat.succ_pos _

theorem Natural.head (h : Natural b cs n) : ∃ c t, cs = c :: t ∧ c.isDigit = true := by
  cases h with
  | decimal h =>
    obtain ⟨⟨c, t, d, rfl, hc⟩, -⟩ := h.run.chars
    exact ⟨c, t, rfl, hc.ten_isDigit⟩
  | marked => exact ⟨'0', _, rfl, rfl⟩

theorem Numeral.head {v : ℚ} (h : Numeral cs v) :
    ∃ c t, cs = c :: t ∧ (c.isDigit = true ∨ c = '.') := by
  cases h with
  | whole hw =>
    obtain ⟨⟨c, t, d, rfl, hc⟩, -⟩ := hw.run.chars
    exact ⟨c, _, List.cons_append, .inl hc.ten_isDigit⟩
  | fraction => exact ⟨'.', _, rfl, .inr rfl⟩

/-! ### Tokens -/

theorem radixDigits_append (h : Run b.radix cs n) (hrest : Closes rest) :
    Lexeme.radixDigits b.isDigit (cs ++ rest) = cs.length + 2 := by
  have hpos := h.length_pos
  have hbig : rest.head? ≠ some 'n' := by
    intro heq
    exact absurd (hrest 'n' heq).1 (by decide)
  unfold Lexeme.radixDigits
  simp only [digits_run h hrest.not_isDigit, List.drop_left]
  rw [if_neg (by omega), if_neg (by simpa using hbig)]

theorem number_marked {letter : Char} (hletter : letter ∈ b.letters) (h : Run b.radix cs n)
    (hrest : Closes rest) :
    Lexeme.number ('0' :: letter :: (cs ++ rest)) = ('0' :: letter :: cs).length := by
  have hdigits := radixDigits_append h hrest
  cases b with
  | binary =>
    simp only [Base.letters, List.mem_cons, List.not_mem_nil, or_false] at hletter
    rcases hletter with rfl | rfl
    · exact hdigits
    · exact hdigits
  | octal =>
    simp only [Base.letters, List.mem_cons, List.not_mem_nil, or_false] at hletter
    rcases hletter with rfl | rfl
    · exact hdigits
    · exact hdigits
  | decimal => cases hletter
  | hexadecimal =>
    simp only [Base.letters, List.mem_cons, List.not_mem_nil, or_false] at hletter
    rcases hletter with rfl | rfl
    · exact hdigits
    · exact hdigits

/-- What comes after the digits of a fraction or of a whole part. -/
theorem Exponent.head {e : Int} (h : Exponent es e) (hrest : Closes rest) :
    ∀ c ∈ (es ++ rest).head?, c.isDigit = false ∧ c ≠ '_' ∧ c ≠ '.' := by
  have hletter : ∀ e ∈ ['e', 'E'], ∀ c ∈ some e, c.isDigit = false ∧ c ≠ '_' ∧ c ≠ '.' := by
    intro e he c hc
    obtain rfl := Option.some.inj hc
    simp only [List.mem_cons, List.not_mem_nil, or_false] at he
    rcases he with rfl | rfl <;> decide
  cases h with
  | none =>
    intro c hc
    have hdigit := hrest.not_isDigit (b := .decimal) c hc
    exact ⟨hdigit.1, hdigit.2, (hrest c hc).2⟩
  | bare he => exact hletter _ he
  | plus he => exact hletter _ he
  | minus he => exact hletter _ he

theorem exponent_append {e : Int} (h : Exponent es e) (hrest : Closes rest) :
    Lexeme.exponent (es ++ rest) = es.length := by
  have hten {cs : List Char} {n : Nat} (h : Run 10 cs n) :
      Lexeme.digits Char.isDigit (cs ++ rest) = cs.length :=
    digits_run (b := .decimal) h hrest.not_isDigit
  have hsign {e s : Char} {cs : List Char} {n : Nat} (he : e ∈ ['e', 'E'])
      (hs : (s == '+' || s == '-') = true) (h : Run 10 cs n) :
      Lexeme.exponent (e :: s :: (cs ++ rest)) = cs.length + 2 := by
    have hletter : (e == 'e' || e == 'E') = true := by simpa using he
    have hpos := h.length_pos
    rw [Lexeme.exponent, if_pos hletter, if_pos hs]
    simp only [hten h]
    exact if_neg (by omega)
  cases h with
  | none =>
    rw [List.nil_append, List.length_nil, Lexeme.exponent.eq_def]
    split
    · rename_i c s cs
      have hpart := (hrest c rfl).1
      have hletter : (c == 'e' || c == 'E') = false := by
        rw [Bool.or_eq_false_iff, beq_eq_false_iff_ne, beq_eq_false_iff_ne]
        constructor
        · rintro rfl
          exact absurd hpart (by decide)
        · rintro rfl
          exact absurd hpart (by decide)
      rw [hletter]
      rfl
    · rfl
  | @bare e cs n he h =>
    obtain ⟨⟨c, t, d, rfl, hc⟩, -⟩ := h.chars
    have hletter : (e == 'e' || e == 'E') = true := by simpa using he
    have hplain : (c == '+' || c == '-') = false := by
      have hdigit := hc.ten_isDigit
      rw [Bool.or_eq_false_iff, beq_eq_false_iff_ne, beq_eq_false_iff_ne]
      constructor
      · rintro rfl
        exact absurd hdigit (by decide)
      · rintro rfl
        exact absurd hdigit (by decide)
    have hlength : Lexeme.digits Char.isDigit (c :: (t ++ rest)) = t.length + 1 := hten h
    show Lexeme.exponent (e :: c :: (t ++ rest)) = _
    rw [Lexeme.exponent, if_pos hletter, hplain, if_neg (by decide)]
    simp only [hlength]
    exact if_neg (by omega)
  | plus he h => exact hsign he rfl h
  | minus he h => exact hsign he rfl h

theorem fraction_append {e : Int} (h : Run 10 cs n) (he : Exponent es e) (hrest : Closes rest) :
    Lexeme.fraction (cs ++ (es ++ rest)) = cs.length + es.length := by
  have hdigits : Lexeme.digits Char.isDigit (cs ++ (es ++ rest)) = cs.length :=
    digits_run (b := .decimal) h fun c hc => ⟨(he.head hrest c hc).1, (he.head hrest c hc).2.1⟩
  unfold Lexeme.fraction
  simp only [hdigits, List.drop_left, exponent_append he hrest]

theorem fraction_none {e : Int} (he : Exponent es e) (hrest : Closes rest) :
    Lexeme.fraction (es ++ rest) = es.length := by
  have hdigits : Lexeme.digits Char.isDigit (es ++ rest) = 0 := by
    have hhead := he.head hrest
    cases heq : es ++ rest with
    | nil => rfl
    | cons c t =>
      rw [heq] at hhead
      rw [Lexeme.digits, (hhead c rfl).1]
      rfl
  unfold Lexeme.fraction
  simp only [hdigits, List.drop_zero, exponent_append he hrest, Nat.zero_add]

theorem Whole.isWholePart (h : Whole cs n) : Lexeme.isWholePart cs = true := by
  obtain ⟨⟨c, t, d, rfl, -⟩, -⟩ := h.run.chars
  rcases h.head with heq | hhead
  · rw [heq]
    rfl
  · have hc : c ≠ '0' := fun heq => hhead (congrArg some heq)
    unfold Lexeme.isWholePart
    split
    · rfl
    · rename_i heq
      exact absurd (List.cons.inj heq).1 hc
    · rename_i heq
      rw [← (List.cons.inj heq).1]
      simpa using hc
    · rename_i heq
      cases heq

theorem decimal_whole {f k : Nat} {e : Int} (h : Whole cs n) (hf : Fraction fs f k) (he : Exponent es e)
    (hrest : Closes rest) :
    Lexeme.decimal (cs ++ (fs ++ (es ++ rest))) = cs.length + (fs.length + es.length) := by
  have hpos := h.run.length_pos
  have hstop : ∀ c ∈ (fs ++ (es ++ rest)).head?, c.isDigit = false ∧ c ≠ '_' := by
    cases hf with
    | none => exact fun c hc => ⟨(he.head hrest c hc).1, (he.head hrest c hc).2.1⟩
    | point =>
      intro c hc
      obtain rfl : '.' = c := by simpa using hc
      decide
    | digits =>
      intro c hc
      obtain rfl : '.' = c := by simpa using hc
      decide
  have hdigits : Lexeme.digits Char.isDigit (cs ++ (fs ++ (es ++ rest))) = cs.length :=
    digits_run (b := .decimal) h.run hstop
  have hwhole := h.isWholePart
  unfold Lexeme.decimal
  simp only [hdigits, List.drop_left, List.take_left, hwhole, Bool.true_and]
  rw [if_neg (by omega)]
  cases hf with
  | none =>
    have hexponent := exponent_append he hrest
    have hpoint : ((es ++ rest).head? == some '.') = false := by
      rw [beq_eq_false_iff_ne]
      intro heq
      exact (he.head hrest '.' heq).2.2 rfl
    rw [List.nil_append, hpoint, if_neg (by decide), hexponent]
    by_cases hes : es = []
    · subst hes
      have hbig : (rest.head? == some 'n') = false := by
        rw [beq_eq_false_iff_ne]
        intro heq
        exact absurd (hrest 'n' heq).1 (by decide)
      rw [List.nil_append, hbig]
      rfl
    · have hlength : es.length ≠ 0 := by simpa using hes
      rw [if_pos (by simpa using hes), List.length_nil, Nat.zero_add]
  | point =>
    show (if true then cs.length + 1 + Lexeme.fraction (es ++ rest) else _) = _
    rw [if_pos rfl, fraction_none he hrest, List.length_singleton, Nat.add_assoc]
  | @digits ds n hds =>
    show (if true then cs.length + 1 + Lexeme.fraction (ds ++ (es ++ rest)) else _) = _
    rw [if_pos rfl, fraction_append hds he hrest, List.length_cons]
    omega

/-- A numeral whose second character is no letter for a base. -/
theorem number_eq_decimal (h : ∀ t, cs = '0' :: t → ∀ c ∈ t.head?, c ∉ ['x', 'X', 'o', 'O', 'b', 'B']) :
    Lexeme.number cs = Lexeme.decimal cs := by
  rw [Lexeme.number.eq_def]
  split
  · rename_i c t
    have hc := h (c :: t) rfl c rfl
    simp only [List.mem_cons, List.not_mem_nil, or_false, not_or] at hc
    simp [hc]
  · rfl

/-- What is left of a numeral behind its whole part begins with no letter for a base. -/
theorem not_letter_of_rest {f k : Nat} {e : Int} (hf : Fraction fs f k) (he : Exponent es e)
    (hrest : Closes rest) :
    ∀ c ∈ (fs ++ (es ++ rest)).head?, c ∉ ['x', 'X', 'o', 'O', 'b', 'B'] := by
  have hpoint : ∀ c ∈ some '.', c ∉ ['x', 'X', 'o', 'O', 'b', 'B'] := by
    intro c hc
    obtain rfl := Option.some.inj hc
    decide
  have hletter : ∀ e ∈ ['e', 'E'], ∀ c ∈ some e, c ∉ ['x', 'X', 'o', 'O', 'b', 'B'] := by
    intro e he c hc
    obtain rfl := Option.some.inj hc
    simp only [List.mem_cons, List.not_mem_nil, or_false] at he
    rcases he with rfl | rfl <;> decide
  cases hf with
  | none =>
    cases he with
    | none =>
      intro c hc hmem
      have hpart := (hrest c hc).1
      simp only [List.mem_cons, List.not_mem_nil, or_false] at hmem
      rcases hmem with rfl | rfl | rfl | rfl | rfl | rfl <;> exact absurd hpart (by decide)
    | bare he => exact hletter _ he
    | plus he => exact hletter _ he
    | minus he => exact hletter _ he
  | point => exact hpoint
  | digits => exact hpoint

theorem number_whole {f k : Nat} {e : Int} (h : Whole cs n) (hf : Fraction fs f k) (he : Exponent es e)
    (hrest : Closes rest) :
    Lexeme.number (cs ++ (fs ++ (es ++ rest))) = cs.length + (fs.length + es.length) := by
  rw [number_eq_decimal, decimal_whole h hf he hrest]
  intro t ht
  rcases h.head with rfl | hhead
  · obtain rfl : fs ++ (es ++ rest) = t := (List.cons.inj ht).2
    exact not_letter_of_rest hf he hrest
  · obtain ⟨⟨c, t', d, rfl, -⟩, -⟩ := h.run.chars
    rw [List.cons_append] at ht
    obtain rfl := (List.cons.inj ht).1
    exact absurd rfl hhead

/-- A natural number is one token. -/
theorem number_natural (h : Natural b cs n) (hrest : Closes rest) :
    Lexeme.number (cs ++ rest) = cs.length := by
  cases h with
  | decimal h => exact number_whole h .none .none hrest
  | marked hletter h => exact number_marked hletter h hrest

/-- A numeral is one token. -/
theorem number_numeral {v : ℚ} (h : Numeral cs v) (hrest : Closes rest) :
    Lexeme.number (cs ++ rest) = cs.length := by
  cases h with
  | whole hw hf he =>
    rw [List.append_assoc, List.append_assoc, number_whole hw hf he hrest, List.length_append,
      List.length_append]
  | @fraction fs es f e hf he =>
    obtain ⟨⟨c, t, d, rfl, hc⟩, -⟩ := hf.chars
    have hfraction : Lexeme.fraction (c :: (t ++ (es ++ rest))) = (c :: t).length + es.length :=
      fraction_append hf he hrest
    have hnone : Lexeme.digits Char.isDigit ('.' :: c :: (t ++ (es ++ rest))) = 0 := rfl
    have hdecimal : Lexeme.number ('.' :: c :: (t ++ (es ++ rest))) =
        Lexeme.decimal ('.' :: c :: (t ++ (es ++ rest))) := by
      apply number_eq_decimal
      intro t ht
      cases ht
    show Lexeme.number ('.' :: (c :: (t ++ es) ++ rest)) = _
    rw [List.cons_append, List.append_assoc, hdecimal]
    unfold Lexeme.decimal
    simp only [hnone, hc.ten_isDigit, if_true, hfraction]
    simp only [List.length_cons, List.length_append]
    omega

end Workyard.Script
