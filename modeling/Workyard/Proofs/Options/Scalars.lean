import Workyard.Proofs.Json.Significands
import Workyard.Proofs.Json.Strings
import Workyard.Proofs.Options.Quotations

/-!
# Written scalars

Numbers and strings as JSON writes them are numbers and strings of scripts, with the same values.
-/

namespace Workyard.Options

set_option autoImplicit false

open Decimal Json Script Script.Node Script.Draft

variable {source : List Char}

/-! ### Numbers -/

theorem digitValue?_of_isDigit {c : Char} (h : c.isDigit = true) :
    digitValue? 10 c = some (c.toNat - 48) := by
  have hle : c.toNat ≤ 57 := by
    simp only [Char.isDigit, Bool.and_eq_true, decide_eq_true_eq] at h
    exact h.2
  have hlt : c.toNat - 48 < 10 := by omega
  simp [digitValue?, h, hlt]

theorem naturalFrom?_digits {cs : List Char} (h : ∀ c ∈ cs, c.isDigit = true) (n : Nat) :
    naturalFrom? 10 n cs = some (Reader.appendDigits n (Reader.digitValues cs)) := by
  induction cs generalizing n with
  | nil => rfl
  | cons c cs ih =>
    rw [List.forall_mem_cons] at h
    rw [naturalFrom?, digitValue?_of_isDigit h.1]
    exact ih h.2 _

theorem natural?_digitsOf (n : Nat) : natural? 10 (digitsOf n) = some n := by
  have hne : (digitsOf n).isEmpty = false := by
    rw [List.isEmpty_eq_false_iff]
    exact Reader.digitsOf_ne_nil n
  rw [natural?, hne, if_neg Bool.false_ne_true,
    naturalFrom?_digits fun c hc => Reader.isDigit_of_mem_digitsOf hc]
  rw [Reader.appendDigits_digitsOf]

/-- Only the number zero begins with the digit zero. -/
theorem digitsOf_zero_or (n : Nat) : digitsOf n = ['0'] ∨ (digitsOf n).head? ≠ some '0' := by
  by_cases hn : n = 0
  · subst hn
    exact .inl rfl
  · obtain ⟨c, cs, hcs, hc⟩ := Reader.digitsOf_head hn
    right
    rw [hcs]
    rintro ⟨⟩
    exact hc rfl

theorem radix?_digitsOf (n : Nat) : radix? (digitsOf n) = none := by
  have hzero := digitsOf_zero_or n
  unfold radix?
  split
  · rename_i hcs
    rw [hcs] at hzero
    simp at hzero
  · rfl

theorem not_mem_digitsOf {n : Nat} {c : Char} (hc : c.isDigit = false) : c ∉ digitsOf n := by
  intro h
  rw [Reader.isDigit_of_mem_digitsOf h] at hc
  cases hc

theorem isReal_digitsOf (n : Nat) : isReal (digitsOf n) = false := by
  rw [isReal, List.any_eq_false]
  intro c hc
  have hne : ∀ x : Char, x.isDigit = false → c ≠ x := by
    rintro x hx rfl
    exact not_mem_digitsOf hx hc
  simp [hne '.' rfl, hne 'e' rfl, hne 'E' rfl]

theorem number?_digitsOf (negative : Bool) (n : Nat) :
    number? negative (String.ofList (digitsOf n)) =
      (integer? negative (digitsOf n) <|> (real? negative (digitsOf n)).map .real) := by
  have hfilter : (digitsOf n).filter (· ≠ '_') = digitsOf n := by
    rw [List.filter_eq_self]
    rintro c hc
    have hne : c ≠ '_' := by
      rintro rfl
      exact not_mem_digitsOf rfl hc
    simpa using hne
  rw [number?, String.toList_ofList, hfilter, radix?_digitsOf]

theorem integer?_digitsOf (negative : Bool) (n : Nat) :
    integer? negative (digitsOf n) =
      (signedInteger? negative n <|> if negative then none else Number.ofInt? n) := by
  rw [integer?, isReal_digitsOf, if_neg Bool.false_ne_true, natural?_digitsOf]
  rfl

theorem number?_natural {n : Nat} (h : -9223372036854775808 ≤ (n : Int) ∧
    (n : Int) < 18446744073709551616) :
    number? false (String.ofList (digitsOf n)) = some (.integer n h) := by
  have hunsigned : Number.ofInt? n = some (.integer n h) := Number.ofInt?_eq_some h
  have hinteger : integer? false (digitsOf n) = some (.integer n h) := by
    rw [integer?_digitsOf, signedInteger?, if_neg Bool.false_ne_true, hunsigned]
    split <;> rfl
  rw [number?_digitsOf, hinteger]
  rfl

theorem number?_negative {n : Nat} (hn : n < 9223372036854775808)
    (h : -9223372036854775808 ≤ -(n : Int) ∧ -(n : Int) < 18446744073709551616) :
    number? true (String.ofList (digitsOf n)) = some (.integer (-n) h) := by
  have hsigned : Number.ofInt? (-n) = some (.integer (-n) h) := Number.ofInt?_eq_some h
  have hinteger : integer? true (digitsOf n) = some (.integer (-n) h) := by
    rw [integer?_digitsOf, signedInteger?, if_pos hn, if_pos rfl, hsigned]
    rfl
  rw [number?_digitsOf, hinteger]
  rfl

/-! ### Strings -/

theorem isHex_hexDigit (n : Nat) : Lexeme.isHex (hexDigit n) = true := by
  have digits : ∀ k < 16, Lexeme.isHex (Nat.digitChar k) = true := by decide
  exact digits (n % 16) (Nat.mod_lt n (by decide))

theorem digitOf_hexDigit (n : Nat) : digitOf (hexDigit n) = n % 16 := by
  have digits : ∀ k < 16, digitOf (Nat.digitChar k) = k := by decide
  exact digits (n % 16) (Nat.mod_lt n (by decide))

theorem codeOf_hexDigit {n : Nat} (h : n < 0x20) :
    codeOf 16 ['0', '0', hexDigit (n / 16), hexDigit n] = n := by
  have hzero : digitOf '0' = 0 := by decide
  simp only [codeOf, List.foldl_cons, List.foldl_nil, digitOf_hexDigit, hzero]
  omega

/-- An element that JSON writes for a character. Whatever comes after it, it is read by itself. -/
structure Writes (e : Element) (c : Char) : Prop where
  chars : e.chars = escapeChar c
  fits : Quote.double.Fits e
  units : e.units = pointUnits c.toNat
  follows : ∀ e', Quote.double.Follows e e'
  alone : ∀ x, e = .escape x → ∀ d, x.takes d = false

theorem writes_single {c sign : Char} (hchars : ['\\', sign] = escapeChar c)
    (hsign : sign ∈ ['\x22', '\\', 'b', 'f', 'n', 'r', 't'])
    (hcode : (signCodes.lookup sign).getD sign.toNat = c.toNat) :
    Writes (.escape (.single sign)) c := by
  have hproper : (Escape.single sign).Proper ∧ (sign == '?') = false := by
    simp only [List.mem_cons, List.not_mem_nil, or_false] at hsign
    rcases hsign with rfl | rfl | rfl | rfl | rfl | rfl | rfl <;>
      exact ⟨⟨by decide, by decide⟩, by decide⟩
  refine ⟨hchars, hproper.1, congrArg pointUnits hcode, by rintro (_ | _) <;> trivial, ?_⟩
  rintro _ ⟨⟩ d
  rw [Escape.takes, hproper.2, Bool.false_and]

theorem writes_control {c : Char} (hc : c.toNat < 0x20)
    (hchars : ['\\', 'u', '0', '0', hexDigit (c.toNat / 16), hexDigit c.toNat] = escapeChar c) :
    Writes (.escape (.unit '0' '0' (hexDigit (c.toNat / 16)) (hexDigit c.toNat))) c := by
  refine ⟨hchars, ?_, congrArg pointUnits (codeOf_hexDigit hc),
    by rintro (_ | _) <;> trivial, ?_⟩
  · intro d hd
    simp only [List.mem_cons, List.not_mem_nil, or_false] at hd
    rcases hd with rfl | rfl | rfl | rfl
    · rfl
    · rfl
    · exact isHex_hexDigit _
    · exact isHex_hexDigit _
  · rintro _ ⟨⟩ d
    rfl

theorem writes_raw {c : Char} (hc : c ∉ ['\x22', '\\', '\r', '\n']) (hchars : [c] = escapeChar c) :
    Writes (.raw c) c := by
  simp only [List.mem_cons, List.not_mem_nil, or_false, not_or] at hc
  refine ⟨hchars, ⟨?_, fun hfeed => absurd hfeed hc.2.2.2⟩, rfl, ?_, by rintro _ ⟨⟩⟩
  · simpa [Quote.char] using ⟨hc.1, hc.2.1, hc.2.2.1⟩
  · rintro (d | e)
    · rintro ⟨⟨⟩, -⟩
    · trivial

theorem exists_writes (c : Char) : ∃ e, Writes e c := by
  by_cases hsign : c ∈ ['\x22', '\\', '\x08', '\x0c', '\n', '\r', '\t']
  · simp only [List.mem_cons, List.not_mem_nil, or_false] at hsign
    rcases hsign with rfl | rfl | rfl | rfl | rfl | rfl | rfl
    · exact ⟨.escape (.single '\x22'), writes_single rfl (by decide) rfl⟩
    · exact ⟨.escape (.single '\\'), writes_single rfl (by decide) rfl⟩
    · exact ⟨.escape (.single 'b'), writes_single rfl (by decide) rfl⟩
    · exact ⟨.escape (.single 'f'), writes_single rfl (by decide) rfl⟩
    · exact ⟨.escape (.single 'n'), writes_single rfl (by decide) rfl⟩
    · exact ⟨.escape (.single 'r'), writes_single rfl (by decide) rfl⟩
    · exact ⟨.escape (.single 't'), writes_single rfl (by decide) rfl⟩
  · simp only [List.mem_cons, List.not_mem_nil, or_false, not_or] at hsign
    obtain ⟨hquote, hslash, hback, hform, hfeed, hreturn, htab⟩ := hsign
    have hchars : escapeChar c = if c.toNat < 0x20 then
        ['\\', 'u', '0', '0', hexDigit (c.toNat / 16), hexDigit c.toNat] else [c] := by
      simp only [escapeChar, hquote, hslash, hback, hform, hfeed, hreturn, htab, if_false]
    by_cases hcontrol : c.toNat < 0x20
    · exact ⟨_, writes_control hcontrol (by rw [hchars, if_pos hcontrol])⟩
    · exact ⟨_, writes_raw (by simp [hquote, hslash, hreturn, hfeed]) (by rw [hchars, if_neg hcontrol])⟩

/-- The text of a written string is divided, and the string is what is heard. -/
theorem exists_written (cs : List Char) :
    ∃ es, es.flatMap Element.chars = cs.flatMap escapeChar ∧ Divided .double es ∧
      heard es = cs.flatMap fun c => pointUnits c.toNat := by
  induction cs with
  | nil => exact ⟨[], rfl, ⟨List.forall_mem_nil _, .nil⟩, rfl⟩
  | cons c cs ih =>
    obtain ⟨e, he⟩ := exists_writes c
    obtain ⟨es, hchars, hdivided, hheard⟩ := ih
    refine ⟨e :: es, ?_, ⟨List.forall_mem_cons.mpr ⟨he.fits, hdivided.fits⟩, ?_⟩, ?_⟩
    · rw [List.flatMap_cons, List.flatMap_cons, he.chars, hchars]
    · exact List.isChain_cons.mpr ⟨fun e' _ => he.follows e', hdivided.follows⟩
    · rw [heard_cons he.alone, he.units, hheard, List.flatMap_cons]

/-- A string as JSON writes it is a quoted string with the same value. -/
theorem leads_quoted {d : Draft source} {s : String} {rest : List Char}
    (hd : d.rest = stringChars s ++ rest) :
    ∃ a b ns, (∀ n ∈ ns, n.IsLeafOf Kind.isQuotedPart) ∧ cook (piecesOf ns) = s ∧
      Leads d (d.quoted '\x22') [.branch .string a b ns] rest := by
  obtain ⟨es, hchars, hdivided, hheard⟩ := exists_written s.toList
  have hliteral : d.rest = literal .double es ++ rest := by
    rw [hd, literal, hchars]
    rfl
  obtain ⟨a, b, ns, hns, hleads⟩ := leads_read (Nat.lt_succ_self _) hdivided hliteral
  refine ⟨a, b, ns, hns.leaves, ?_, hleads⟩
  have hvalue : decode (s.toList.flatMap fun c => pointUnits c.toNat) = s.toList := by
    simpa [decode] using decode_chars s.toList []
  rw [hns.value, hheard, hvalue, String.ofList_toList]

end Workyard.Options
