import Workyard.Json.Printer
import Workyard.Proofs.Json.Tokens

/-!
# Written strings

A string that is written reads back, whatever its characters, and no control character stands
in its text.
-/

namespace Workyard.Json

set_option autoImplicit false

namespace Reader

theorem hexValue?_hexDigit (n : Nat) : hexValue? (hexDigit n) = some (n % 16) := by
  have digits : ∀ k < 16, hexValue? (Nat.digitChar k) = some k := by decide
  exact digits (n % 16) (Nat.mod_lt n (by decide))

theorem byteLength_take_four (a b c d : Char) (cs : List Char) :
    ¬ Text.byteLength ((a :: b :: c :: d :: cs).take 4) < 4 := by
  have ha := Text.utf8Size_ne_zero a
  have hb := Text.utf8Size_ne_zero b
  have hc := Text.utf8Size_ne_zero c
  have hd := Text.utf8Size_ne_zero d
  simp only [List.take_succ_cons, List.take_zero, Text.byteLength_cons, Text.byteLength_nil]
  omega

/-- The digits of a control character are those of its number. -/
theorem unicodeEscape_hexDigit {c : Char} (h : c.toNat < 0x20) (cs : List Char) :
    unicodeEscape ('0' :: '0' :: hexDigit (c.toNat / 16) :: hexDigit c.toNat :: cs) =
      .ok (c, cs) := by
  have hzero : hexValue? '0' = some 0 := by decide
  have hvalue : ((0 * 16 + 0) * 16 + c.toNat / 16 % 16) * 16 + c.toNat % 16 = c.toNat := by omega
  have hfour : fourHex ('0' :: '0' :: hexDigit (c.toNat / 16) :: hexDigit c.toNat :: cs) =
      .ok (c.toNat, cs) := by
    unfold fourHex
    rw [if_neg (byteLength_take_four _ _ _ _ cs)]
    simp only [hzero, hexValue?_hexDigit, hvalue]
  have hlow : ¬ 0xDC00 ≤ c.toNat := by omega
  have hhigh : c.toNat < 0xD800 := by omega
  unfold unicodeEscape
  rw [hfour]
  simp [Bind.bind, Except.bind, hlow, hhigh]

theorem stringTail_escapeChar (fuel : Nat) (c : Char) (cs : List Char) :
    stringTail (fuel + 1) (escapeChar c ++ cs) =
      stringTail fuel cs >>= fun r => .ok (c :: r.1, r.2) := by
  unfold escapeChar
  split
  · subst_vars
    simp [stringTail, plainEscape?]
  split
  · subst_vars
    simp [stringTail, plainEscape?]
  split
  · subst_vars
    simp [stringTail, plainEscape?]
  split
  · subst_vars
    simp [stringTail, plainEscape?]
  split
  · subst_vars
    simp [stringTail, plainEscape?]
  split
  · subst_vars
    simp [stringTail, plainEscape?]
  split
  · subst_vars
    simp [stringTail, plainEscape?]
  split
  · rename_i hcontrol
    have hescape := unicodeEscape_hexDigit hcontrol cs
    simp [stringTail, hescape, Bind.bind, Except.bind]
  · rename_i hquote hslash _ _ _ _ _ hcontrol
    simp [stringTail, hquote, hslash, hcontrol]

theorem escapeChar_ne_nil (c : Char) : escapeChar c ≠ [] := by
  unfold escapeChar
  repeat' split
  all_goals exact List.cons_ne_nil _ _

theorem length_le_flatMap_escapeChar (cs : List Char) :
    cs.length ≤ (cs.flatMap escapeChar).length := by
  induction cs with
  | nil => simp
  | cons c cs ih =>
    have hpos := List.length_pos_iff.mpr (escapeChar_ne_nil c)
    rw [List.flatMap_cons, List.length_append, List.length_cons]
    omega

theorem stringTail_flatMap_escapeChar {fuel : Nat} (cs rest : List Char)
    (hfuel : cs.length < fuel) :
    stringTail fuel (cs.flatMap escapeChar ++ '\x22' :: rest) = .ok (cs, rest) := by
  induction cs generalizing fuel with
  | nil =>
    obtain ⟨k, rfl⟩ : ∃ k, fuel = k + 1 := ⟨fuel - 1, by omega⟩
    simp [stringTail]
  | cons c cs ih =>
    rw [List.length_cons] at hfuel
    obtain ⟨k, rfl⟩ : ∃ k, fuel = k + 1 := ⟨fuel - 1, by omega⟩
    rw [List.flatMap_cons, List.append_assoc, stringTail_escapeChar, ih (by omega)]
    rfl

/-- The text of a string after its opening quote reads as the string. -/
theorem string_flatMap_escapeChar (s : String) (rest : List Char) :
    string (s.toList.flatMap escapeChar ++ '\x22' :: rest) = .ok (s, rest) := by
  have hlength := length_le_flatMap_escapeChar s.toList
  unfold string
  rw [stringTail_flatMap_escapeChar s.toList rest
    (by rw [List.length_append]; omega)]
  simp [Bind.bind, Except.bind]

end Reader

/-! ### No control characters -/

theorem toNat_hexDigit (n : Nat) : 0x20 ≤ (hexDigit n).toNat := by
  have digits : ∀ k < 16, 0x20 ≤ (Nat.digitChar k).toNat := by decide
  exact digits (n % 16) (Nat.mod_lt n (by decide))

theorem toNat_of_mem_escapeChar {c x : Char} (h : x ∈ escapeChar c) : 0x20 ≤ x.toNat := by
  have letter : ∀ e : Char, 0x20 ≤ e.toNat → x ∈ ['\\', e] → 0x20 ≤ x.toNat := by
    intro e he hx
    simp only [List.mem_cons, List.not_mem_nil, or_false] at hx
    rcases hx with rfl | rfl
    · decide
    · exact he
  unfold escapeChar at h
  split at h
  · exact letter _ (by decide) h
  split at h
  · exact letter _ (by decide) h
  split at h
  · exact letter _ (by decide) h
  split at h
  · exact letter _ (by decide) h
  split at h
  · exact letter _ (by decide) h
  split at h
  · exact letter _ (by decide) h
  split at h
  · exact letter _ (by decide) h
  split at h
  · simp only [List.mem_cons, List.not_mem_nil, or_false] at h
    rcases h with rfl | rfl | rfl | rfl | rfl | rfl
    · decide
    · decide
    · decide
    · decide
    · exact toNat_hexDigit _
    · exact toNat_hexDigit _
  · rw [List.mem_singleton] at h
    subst h
    omega

theorem toNat_of_mem_stringChars {s : String} {x : Char} (h : x ∈ stringChars s) :
    0x20 ≤ x.toNat := by
  simp only [stringChars, List.cons_append, List.mem_cons, List.mem_append, List.mem_flatMap,
    List.not_mem_nil, or_false] at h
  rcases h with rfl | ⟨c, -, hx⟩ | rfl
  · decide
  · exact toNat_of_mem_escapeChar hx
  · decide

end Workyard.Json
