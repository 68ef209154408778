import Workyard.Proofs.Options.Numerals
import Workyard.Proofs.Options.ReadBack

/-!
# Spelled integers

Which integers are read as themselves. In base ten a natural number may have 64 bits; a number with a
minus sign before it, or in another base, may have 63. What has more is rounded to a binary number in
base ten, and no number at all in another base.
-/

namespace Workyard.Options

set_option autoImplicit false

open Decimal Json Script Script.Node Script.Draft

variable {b : Base} {cs rest : List Char} {c : Char} {n fuel : Nat} {z : Int} {negative : Bool}

/-- The integers that are read as themselves when they are spelled in a base. -/
def Fits (b : Base) (z : Int) : Prop :=
  z.natAbs < 9223372036854775808 ∨ (b = .decimal ∧ 0 ≤ z)

instance (b : Base) (z : Int) : Decidable (Fits b z) :=
  inferInstanceAs (Decidable (_ ∨ _))

def signed (negative : Bool) (n : Nat) : Int :=
  if negative then -n else n

/-- The spelling of an integer without a plus sign. -/
def withoutPlus : List Char → List Char
  | '+' :: cs => cs
  | cs => cs

/-- The binary number that is the least integer. -/
def leastReal : Binary64 :=
  ⟨true, 4503599627370496, 11, by decide, by decide, by decide, .inr (by decide)⟩

/-! ### Values -/

theorem natAbs_signed (negative : Bool) (n : Nat) : (signed negative n).natAbs = n := by
  cases negative with
  | false => exact Int.natAbs_natCast n
  | true => exact (Int.natAbs_neg n).trans (Int.natAbs_natCast n)

theorem number?_of_lt (h : Natural b cs n) (hn : n < 9223372036854775808)
    (hz : -9223372036854775808 ≤ signed negative n ∧ signed negative n < 18446744073709551616) :
    number? negative (String.ofList cs) = some (.integer (signed negative n) hz) := by
  have hsigned : signedInteger? negative n = some (.integer (signed negative n) hz) := by
    rw [signedInteger?, if_pos hn]
    exact Number.ofInt?_eq_some hz
  cases h with
  | decimal h =>
    rw [number?_decimal h.run, hsigned]
    rfl
  | marked hletter h => rw [number?_marked hletter h, hsigned]

theorem ofDecimal?_least : Binary64.ofDecimal? true 9223372036854775808 0 = some leastReal := by
  decide +kernel

/-- A number in base ten that does not fit with a sign. -/
theorem number?_of_le (h : Whole cs n) (hn : 9223372036854775808 ≤ n)
    (hz : -9223372036854775808 ≤ signed negative n ∧ signed negative n < 18446744073709551616) :
    number? negative (String.ofList cs) =
      if negative then some (.real leastReal) else some (.integer (signed negative n) hz) := by
  rw [number?_decimal h.run, signedInteger?, if_neg (by omega)]
  cases negative with
  | false =>
    have hunsigned : Number.ofInt? n = some (.integer n hz) := Number.ofInt?_eq_some hz
    rw [if_neg Bool.false_ne_true, if_neg Bool.false_ne_true, hunsigned]
    rfl
  | true =>
    obtain ⟨hleast, -⟩ := hz
    have hleast : -9223372036854775808 ≤ -(n : Int) := hleast
    obtain rfl : n = 9223372036854775808 := by omega
    rw [ofDecimal?_least]
    rfl

theorem number_of_natural (h : Natural b cs n)
    (hz : -9223372036854775808 ≤ signed negative n ∧ signed negative n < 18446744073709551616) :
    number negative (String.ofList cs) 0 =
      if Fits b (signed negative n) then .ok (.integer (signed negative n) hz)
      else if b = .decimal then .ok (.real leastReal)
      else .error (.invalidNumber
        (if negative then "-" ++ String.ofList cs else String.ofList cs) 0) := by
  by_cases hn : n < 9223372036854775808
  · have hfits : Fits b (signed negative n) := by
      left
      rw [natAbs_signed]
      exact hn
    rw [number, number?_of_lt h hn hz, if_pos hfits]
  · have hfits : Fits b (signed negative n) ↔ b = .decimal ∧ negative = false := by
      rw [Fits, natAbs_signed]
      cases negative with
      | false =>
        have hpos : 0 ≤ signed false n := Int.natCast_nonneg n
        simp [hn, hpos]
      | true =>
        have hneg : ¬ 0 ≤ signed true n := by
          show ¬ 0 ≤ -(n : Int)
          omega
        simp [hn, hneg]
    cases h with
    | decimal h =>
      rw [number, number?_of_le h (by omega) hz]
      cases negative with
      | false => rw [if_pos (hfits.mpr ⟨rfl, rfl⟩)]; rfl
      | true => rw [if_neg fun hfit => Bool.noConfusion (hfits.mp hfit).2]; rfl
    | marked hletter h =>
      have hb : b ≠ .decimal := by
        rintro rfl
        cases hletter
      rw [number, number?_marked hletter h, signedInteger?, if_neg hn,
        if_neg fun hfit => hb (hfits.mp hfit).1, if_neg hb]

/-! ### Texts -/

theorem closes_of_settled (h : Settled rest) : Closes rest := by
  intro c hc
  obtain ⟨hpart, -, -, hpoint⟩ := h.breaks.apart hc
  exact ⟨hpart, hpoint⟩

theorem begins_natural (h : Natural b cs n) (rest : List Char) : Begins (cs ++ rest) := by
  obtain ⟨c, t, rfl, hc⟩ := h.head
  exact begins_of_isDigit hc _

/-- A natural number is an operand of its own. -/
theorem leads_natural {source : List Char} {d : Draft source} (fuel : Nat) (h : Natural b cs n)
    (hrest : Settled rest) (hd : d.rest = cs ++ rest) :
    Leads d (operand (fuel + 3) d) [.leaf .number d.cursor.mark (String.ofList cs)] rest := by
  have hlength := number_natural h (closes_of_settled hrest)
  obtain ⟨c, t, rfl, hc⟩ := h.head
  exact leads_number fuel hc hlength hrest hd

theorem mapError_number (text : String) :
    ((number negative text 1).map Json.number).mapError (·.move (· - 1)) =
      (number negative text 0).map Json.number := by
  unfold number
  cases number? negative text with
  | none => rfl
  | some x => rfl

theorem parseLiteral_natural (h : Natural b cs n) :
    parseLiteral (String.ofList cs) = (number false (String.ofList cs) 0).map .number := by
  have hchars : (String.ofList cs).toList = cs := String.toList_ofList
  have hcomma : String.ofList cs ≠ "," := by
    intro heq
    obtain ⟨c, t, rfl, hc⟩ := h.head
    obtain rfl : c = ',' := (List.cons.inj (String.ofList_injective heq)).1
    cases hc
  rw [← mapError_number]
  refine parseLiteral_of_node (by rw [hchars]; exact begins_natural h) fun d hd hoffset => ?_
  rw [hchars] at hd
  have hleads := leads_expression (d := d) settled_enclosed
    (leads_natural (16 * (enclosed (String.ofList cs)).length + 50) h settled_enclosed hd)
  have hsingle : Single (Node.leaf .number d.cursor.mark (String.ofList cs)) :=
    ⟨rfl, by rintro ⟨⟩, by rintro ⟨⟩, hcomma⟩
  refine ⟨_, ⟨hsingle, ?_, rfl⟩, hleads⟩
  rw [valueOf, Text.Cursor.offset_mark, hoffset]

theorem begins_signed (h : Natural b cs n) (hc : c ∈ ['+', '-']) (rest : List Char) :
    Begins (c :: (cs ++ rest)) := by
  obtain ⟨x, t, rfl, hx⟩ := h.head
  simp only [List.mem_cons, List.not_mem_nil, or_false] at hc
  rcases hc with rfl | rfl
  · exact ⟨⟨rfl, rfl, rfl⟩, _, _, rfl, by decide⟩
  · refine ⟨⟨rfl, rfl, ?_⟩, _, _, rfl, by decide⟩
    rw [List.cons_append, Lexeme.htmlComment.eq_def]
    split
    · rename_i heq
      cases heq
    · rename_i heq
      rw [(List.cons.inj (List.cons.inj heq).2).1] at hx
      cases hx
    · rfl

theorem parseLiteral_signed (h : Natural b cs n) (hc : c ∈ ['+', '-']) :
    parseLiteral (String.ofList (c :: cs)) =
      (number (c = '-') (String.ofList cs) 0).map .number := by
  have hchars : (String.ofList (c :: cs)).toList = c :: cs := String.toList_ofList
  have hhead (rest : List Char) : (cs ++ rest).head? ≠ some c := by
    obtain ⟨x, t, rfl, hx⟩ := h.head
    intro heq
    obtain rfl : x = c := Option.some.inj heq
    simp only [List.mem_cons, List.not_mem_nil, or_false] at hc
    rcases hc with rfl | rfl <;> cases hx
  rw [← mapError_number]
  refine parseLiteral_of_node (by rw [hchars]; exact begins_signed h hc) fun d hd hoffset => ?_
  rw [hchars] at hd
  obtain ⟨b', m, operand, ⟨m', rfl⟩, hleads⟩ := leads_signed
    (P := fun operand => ∃ m, operand = .leaf .number m (String.ofList cs)) hc hd (hhead _)
    (begins_natural h _).solid settled_enclosed fun e he => ⟨_, ⟨_, rfl⟩,
      leads_natural (16 * (enclosed (String.ofList (c :: cs))).length + 49) h settled_enclosed he⟩
  have hsingle : Single (.branch .unary d.cursor.mark b'
      [.leaf .punctuation m (String.ofList [c]), .leaf .number m' (String.ofList cs)]) :=
    ⟨rfl, by rintro ⟨⟩, by rintro ⟨⟩, by simp [text]⟩
  have hsign : (String.ofList [c] = "-" ∨ String.ofList [c] = "+") ∧
      (decide (String.ofList [c] = "-") = decide (c = '-')) := by
    simp only [List.mem_cons, List.not_mem_nil, or_false] at hc
    rcases hc with rfl | rfl <;> decide
  refine ⟨_, ⟨hsingle, ?_, rfl⟩, hleads⟩
  rw [valueOf]
  show (if (String.ofList [c] = "-" ∨ String.ofList [c] = "+") ∧ Kind.number = .number then
    (number (String.ofList [c] = "-") (String.ofList cs) d.cursor.offset).map Json.number else _) = _
  rw [if_pos ⟨hsign.1, rfl⟩, hsign.2, hoffset]

/-! ### Spelled integers -/

/-- However an integer is spelled, its text is a natural number behind a sign or none. -/
theorem parseLiteral_of_spelled (h : Spelled b cs z) :
    ∃ negative n ds, Natural b ds n ∧ z = signed negative n ∧
      String.ofList (withoutPlus cs) =
        (if negative then "-" ++ String.ofList ds else String.ofList ds) ∧
      parseLiteral (String.ofList cs) = (number negative (String.ofList ds) 0).map .number := by
  cases h with
  | @bare cs n h =>
    refine ⟨false, n, cs, h, rfl, ?_, parseLiteral_natural h⟩
    obtain ⟨c, t, rfl, hc⟩ := h.head
    have hplus : c ≠ '+' := by
      rintro rfl
      cases hc
    rw [withoutPlus.eq_def, if_neg Bool.false_ne_true]
    split
    · rename_i heq
      exact absurd (List.cons.inj heq).1 hplus
    · rfl
  | @plus cs n h => exact ⟨false, n, cs, h, rfl, rfl, parseLiteral_signed h (by decide)⟩
  | @minus cs n h hn =>
    refine ⟨true, n, cs, h, rfl, ?_, parseLiteral_signed h (by decide)⟩
    show String.ofList (['-'] ++ cs) = "-" ++ String.ofList cs
    rw [String.ofList_append]

theorem isDigit_fifteen : IsDigit 16 'f' 15 ∧ IsDigit 16 'F' 15 :=
  ⟨⟨by decide, .inl rfl⟩, ⟨by decide, .inr rfl⟩⟩

/-- The greatest number of so many digits. -/
theorem run_replicate (k : Nat) : Run 16 (List.replicate (k + 1) 'f') (16 ^ (k + 1) - 1) := by
  obtain ⟨hf, -⟩ := isDigit_fifteen
  induction k with
  | zero => exact .one hf
  | succ k ih =>
    have hpos : 0 < 16 ^ (k + 1) := Nat.pow_pos (by decide)
    have hnext := ih.digit hf
    rw [← List.replicate_succ'] at hnext
    have hvalue : (16 ^ (k + 1) - 1) * 16 + 15 = 16 ^ (k + 1 + 1) - 1 := by
      rw [Nat.pow_succ 16 (k + 1)]
      omega
    rw [← hvalue]
    exact hnext

/-- An integer of 64 bits is read as itself just when it fits: whatever else is spelled is rounded in
base ten, which only the least integer is, and no number in another base. -/
theorem parseLiteral_spelled (h : Spelled b cs z)
    (hz : -9223372036854775808 ≤ z ∧ z < 18446744073709551616) :
    (parseLiteral (String.ofList cs) = .ok (.number (.integer z hz)) ↔ Fits b z) ∧
      (¬ Fits b z → b = .decimal →
        parseLiteral (String.ofList cs) = .ok (.number (.real leastReal))) ∧
      (¬ Fits b z → b ≠ .decimal → parseLiteral (String.ofList cs) =
        .error (.invalidNumber (String.ofList (withoutPlus cs)) 0)) := by
  obtain ⟨negative, n, ds, hds, rfl, htext, hparse⟩ := parseLiteral_of_spelled h
  rw [hparse, htext, number_of_natural hds hz]
  by_cases hfits : Fits b (signed negative n)
  · rw [if_pos hfits]
    exact ⟨iff_of_true rfl hfits, fun hnot => absurd hfits hnot, fun hnot => absurd hfits hnot⟩
  · rw [if_neg hfits]
    by_cases hb : b = .decimal
    · rw [if_pos hb]
      exact ⟨iff_of_false nofun hfits, fun _ _ => rfl, fun _ hne => absurd hb hne⟩
    · rw [if_neg hb]
      exact ⟨iff_of_false nofun hfits, fun _ heq => absurd heq hb, fun _ _ => rfl⟩

theorem parseLiteral_spelled_hexadecimal : ∃ hz,
    Spelled .hexadecimal ['-', '0', 'X', 'f', '_', 'F'] (-255) ∧
      parseLiteral "-0Xf_F" = .ok (.number (.integer (-255) hz)) := by
  obtain ⟨hf, hF⟩ := isDigit_fifteen
  have hrun : Run 16 (['f'] ++ ['_', 'F']) (15 * 16 + 15) := .line (.one hf) hF
  have hspelled : Spelled .hexadecimal ['-', '0', 'X', 'f', '_', 'F'] (-255) :=
    .minus (.marked (b := .hexadecimal) (by decide) hrun) (by decide)
  obtain ⟨hread, -⟩ := parseLiteral_spelled hspelled (by decide)
  exact ⟨by decide, hspelled, hread.mpr (.inl (by decide))⟩

/-- An integer that fits without a sign is no number in base sixteen. -/
theorem hexadecimal_is_refused :
    Spelled .hexadecimal ('0' :: 'x' :: List.replicate 16 'f') 18446744073709551615 ∧
      String.ofList ('0' :: 'x' :: List.replicate 16 'f') = "0xffffffffffffffff" ∧
      parseLiteral "0xffffffffffffffff" = .error (.invalidNumber "0xffffffffffffffff" 0) := by
  have hnatural : Natural .hexadecimal ('0' :: 'x' :: List.replicate 16 'f') 18446744073709551615 :=
    .marked (by decide) (run_replicate 15)
  have htext : String.ofList ('0' :: 'x' :: List.replicate 16 'f') = "0xffffffffffffffff" := by decide
  have hread := parseLiteral_natural hnatural
  have hrange : -9223372036854775808 ≤ signed false 18446744073709551615 ∧
      signed false 18446744073709551615 < 18446744073709551616 := by decide
  have hnumber := number_of_natural hnatural hrange
  rw [if_neg (by decide), if_neg (by decide)] at hnumber
  rw [hnumber, htext] at hread
  exact ⟨.bare hnatural, htext, hread⟩

end Workyard.Options
