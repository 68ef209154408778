import Mathlib.Data.List.Chain
import Workyard.Options.Literal
import Workyard.Proofs.Options.CodeUnits
import Workyard.Proofs.Script.Leads
import Workyard.Proofs.Script.Shape

/-!
# Quoted text

The text between the quotes of a string, or of a template without substitutions, is a sequence of
characters that stand for themselves and of escapes. Reading goes from escape to escape, and puts off
the characters between two of them until the run ends. Two escapes may take the character after them
as well: an octal one that has fewer than three digits takes a digit, and an escaped question mark
takes the end of a line.
-/

namespace Workyard.Options

set_option autoImplicit false

open Script Script.Node Script.Draft

/-- An escape of a string. -/
inductive Escape where
  | single (c : Char)
  | octal (digits : List Char)
  | byte (a b : Char)
  | unit (a b c d : Char)
  | point (digits : List Char)

/-- A part of the text of a string. -/
inductive Element where
  | raw (c : Char)
  | escape (e : Escape)

inductive Quote where
  | single | double | backtick
  deriving DecidableEq

/-- The signs that stand for another character when they are escaped. -/
def signCodes : List (Char × Nat) :=
  [('n', 0xA), ('t', 0x9), ('r', 0xD), ('b', 0x8), ('f', 0xC), ('v', 0xB)]

namespace Escape

/-- What comes after the backslash. -/
def body : Escape → List Char
  | .single c => [c]
  | .octal digits => digits
  | .byte a b => ['x', a, b]
  | .unit a b c d => ['u', a, b, c, d]
  | .point digits => 'u' :: '\x7b' :: (digits ++ ['\x7d'])

/-- The code unit or the code point that an escape stands for. -/
def code : Escape → Nat
  | .single c => (signCodes.lookup c).getD c.toNat
  | .octal digits => codeOf 8 digits
  | .byte a b => codeOf 16 [a, b]
  | .unit a b c d => codeOf 16 [a, b, c, d]
  | .point digits => codeOf 16 digits

/-- The escapes of a script, but for escaped line ends. An octal escape stands for one byte. -/
def Proper : Escape → Prop
  | .single c => c ∉ ['x', 'u', '\r', '\n', '\u2028', '\u2029'] ∧ Lexeme.isOctal c = false
  | .octal digits => digits ≠ [] ∧ (∀ d ∈ digits, Lexeme.isOctal d = true) ∧ digits.length ≤ 3 ∧
      codeOf 8 digits ≤ 255
  | .byte a b => ∀ d ∈ [a, b], Lexeme.isHex d = true
  | .unit a b c d => ∀ x ∈ [a, b, c, d], Lexeme.isHex x = true
  | .point digits => digits ≠ [] ∧ ∀ d ∈ digits, Lexeme.isHex d = true

/-- Whether an escape may end before a character. An octal one goes on with each digit as long as it
stands for one byte. -/
def EndsBefore : Escape → Char → Prop
  | .octal digits, d => Lexeme.isOctal d = true → digits.length < 3 → 255 < codeOf 8 (digits ++ [d])
  | _, _ => True

/-- Whether a character that comes after an escape is read as a part of it. -/
def takes : Escape → Char → Bool
  | .single c, d => c == '?' && Lexeme.isLineEnd d
  | .octal digits, d => Lexeme.isOctal d && decide (digits.length < 3)
  | _, _ => false

/-- What an escape stands for with the character that it takes. -/
def taking : Escape → Char → Nat
  | .octal digits, d => codeOf 8 (digits ++ [d])
  | e, _ => e.code

end Escape

namespace Element

def chars : Element → List Char
  | .raw c => [c]
  | .escape e => '\\' :: e.body

/-- The code units that an element stands for. -/
def units : Element → List Nat
  | .raw c => pointUnits c.toNat
  | .escape e => pointUnits e.code

end Element

namespace Quote

def char : Quote → Char
  | .single => '\x27'
  | .double => '\x22'
  | .backtick => '\x60'

/-- The characters that stand for themselves. -/
def Holds (q : Quote) (c : Char) : Prop :=
  c ∉ [q.char, '\\', '\r'] ∧ (c = '\n' → q = .backtick)

/-- The elements that there are between two quotes. -/
def Fits (q : Quote) : Element → Prop
  | .raw c => q.Holds c
  | .escape e => e.Proper

/-- Whether one element may come after another. In a template a dollar before a brace begins a
substitution. -/
def Follows (q : Quote) : Element → Element → Prop
  | .raw c, .raw d => ¬ (q = .backtick ∧ c = '$' ∧ d = '\x7b')
  | .escape e, .raw d => e.EndsBefore d
  | _, .escape _ => True

end Quote

/-- A sequence of elements that is the text of a string. -/
structure Divided (q : Quote) (es : List Element) : Prop where
  fits : ∀ e ∈ es, q.Fits e
  follows : es.IsChain q.Follows

/-- What holds of all characters of a text is decided along the text, and not by going through all
characters that there are. -/
scoped instance (priority := high) decidableAllOf (P : Char → Prop) [DecidablePred P]
    (cs : List Char) : Decidable (∀ c ∈ cs, P c) :=
  List.decidableBAll P cs

instance : DecidablePred Escape.Proper
  | .single c => inferInstanceAs (Decidable (c ∉ _ ∧ Lexeme.isOctal c = false))
  | .octal digits => inferInstanceAs (Decidable (digits ≠ [] ∧ _ ∧ digits.length ≤ 3 ∧ _))
  | .byte a b => inferInstanceAs (Decidable (∀ d ∈ [a, b], Lexeme.isHex d = true))
  | .unit a b c d => inferInstanceAs (Decidable (∀ x ∈ [a, b, c, d], Lexeme.isHex x = true))
  | .point digits => inferInstanceAs (Decidable (digits ≠ [] ∧ _))

instance (q : Quote) : DecidablePred q.Fits
  | .raw c => inferInstanceAs (Decidable (c ∉ [q.char, '\\', '\r'] ∧ (c = '\n' → q = .backtick)))
  | .escape e => inferInstanceAs (Decidable e.Proper)

instance : DecidableRel Escape.EndsBefore
  | .octal digits, d => inferInstanceAs (Decidable (Lexeme.isOctal d = true → digits.length < 3 → _))
  | .single _, _ => .isTrue trivial
  | .byte _ _, _ => .isTrue trivial
  | .unit _ _ _ _, _ => .isTrue trivial
  | .point _, _ => .isTrue trivial

instance (q : Quote) : DecidableRel q.Follows
  | .raw c, .raw d => inferInstanceAs (Decidable (¬ (q = .backtick ∧ c = '$' ∧ d = '\x7b')))
  | .escape e, .raw d => inferInstanceAs (Decidable (e.EndsBefore d))
  | .raw _, .escape _ => .isTrue trivial
  | .escape _, .escape _ => .isTrue trivial

instance (q : Quote) (es : List Element) : Decidable (Divided q es) :=
  decidable_of_iff ((∀ e ∈ es, q.Fits e) ∧ es.IsChain q.Follows)
    ⟨fun h => ⟨h.1, h.2⟩, fun h => ⟨h.fits, h.follows⟩⟩

/-- The text of a string. -/
def literal (q : Quote) (es : List Element) : List Char :=
  q.char :: (es.flatMap Element.chars ++ [q.char])

/-- The code units that are read from elements, when an escape takes what comes after it. -/
def heard : List Element → List Nat
  | .escape e :: .raw c :: es =>
    if e.takes c then pointUnits (e.taking c) ++ heard es
    else pointUnits e.code ++ heard (.raw c :: es)
  | e :: es => e.units ++ heard es
  | [] => []

/-! ### Escapes -/

namespace Escape

variable {e : Escape} {c d : Char} {cs ds after : List Char}

theorem isOctal_iff : Lexeme.isOctal c = true ↔ '0' ≤ c ∧ c ≤ '7' := by
  simp [Lexeme.isOctal]

theorem digitOf_lt_of_isOctal (h : Lexeme.isOctal c = true) : digitOf c < 8 := by
  obtain ⟨hle, hge⟩ := isOctal_iff.mp h
  have hge : c.toNat ≤ 55 := hge
  have hdigit : c.isDigit = true := by
    simp only [Char.isDigit, Bool.and_eq_true, decide_eq_true_eq]
    exact ⟨hle, by show c.toNat ≤ 57; omega⟩
  rw [digitOf, if_pos hdigit]
  omega

theorem takeWhile_isOctal (hds : ∀ d ∈ ds, Lexeme.isOctal d = true)
    (hafter : ∀ d ∈ after.head?, Lexeme.isOctal d = false) :
    (ds ++ after).takeWhile Lexeme.isOctal = ds := by
  rw [List.takeWhile_append_of_pos hds]
  cases after with
  | nil => rw [List.takeWhile_nil, List.append_nil]
  | cons d after =>
    rw [List.takeWhile_cons_of_neg (by simpa using hafter d rfl), List.append_nil]

theorem escape_octal (hne : ds ≠ []) (hds : ∀ d ∈ ds, Lexeme.isOctal d = true) (hlength : ds.length ≤ 3)
    (hafter : ∀ d ∈ after.head?, (octal ds).takes d = false) :
    Lexeme.escape ('\\' :: (ds ++ after)) = ds.length + 1 := by
  obtain ⟨c, ds, rfl⟩ := List.exists_cons_of_ne_nil hne
  have hc := hds c List.mem_cons_self
  have hxu : (c == 'u') = false ∧ (c == 'x') = false := by
    constructor
    all_goals
      rw [beq_eq_false_iff_ne]
      rintro rfl
      exact absurd hc (by decide)
  have htake : ((c :: ds ++ after).take 3).takeWhile Lexeme.isOctal = c :: ds := by
    rw [List.take_append, List.take_of_length_le hlength]
    refine takeWhile_isOctal hds fun d hd => ?_
    by_cases hfull : (c :: ds).length = 3
    · rw [hfull] at hd
      cases hd
    · obtain ⟨k, hk⟩ : ∃ k, 3 - (c :: ds).length = k + 1 := ⟨2 - (c :: ds).length, by omega⟩
      rw [hk] at hd
      have hd : d ∈ after.head? := by
        cases after with
        | nil => cases hd
        | cons => exact hd
      have htakes := hafter d hd
      rw [takes, decide_eq_true (by omega), Bool.and_true] at htakes
      exact htakes
  rw [List.cons_append, Lexeme.escape.eq_def]
  simp only []
  rw [hxu.1, hxu.2, if_neg Bool.false_ne_true, if_neg Bool.false_ne_true, if_pos hc,
    ← List.cons_append, htake, Nat.add_comm]

theorem escape_single (h : (single c).Proper) :
    Lexeme.escape ('\\' :: c :: after) =
      if (after.head?.map (single c).takes).getD false then 3 else 2 := by
  obtain ⟨hc, hoctal⟩ := h
  simp only [List.mem_cons, List.not_mem_nil, or_false, not_or] at hc
  obtain ⟨hx, hu, hreturn, -⟩ := hc
  have htakes : ((c == '\r' || c == '?') && (after.head?.map Lexeme.isLineEnd).getD false) =
      (after.head?.map (single c).takes).getD false := by
    rw [beq_eq_false_iff_ne.mpr hreturn, Bool.false_or]
    cases after with
    | nil => rw [List.head?_nil, Option.map_none, Option.map_none, Option.getD_none, Bool.and_false]
    | cons d after => rfl
  rw [Lexeme.escape.eq_def]
  simp only []
  rw [beq_eq_false_iff_ne.mpr hu, beq_eq_false_iff_ne.mpr hx, hoctal, htakes]
  rfl

theorem ne_brace_of_isHex (h : Lexeme.isHex c = true) : c ≠ '\x7b' ∧ c ≠ '\x7d' := by
  constructor
  all_goals
    rintro rfl
    exact absurd h (by decide)

theorem unicodeEscape_point (hne : ds ≠ []) (hds : ∀ d ∈ ds, Lexeme.isHex d = true) :
    Lexeme.unicodeEscape ('\\' :: 'u' :: '\x7b' :: (ds ++ '\x7d' :: after)) = ds.length + 4 := by
  have hstop : Lexeme.isHex '\x7d' = false := by decide
  have hdigits : (ds ++ '\x7d' :: after).takeWhile Lexeme.isHex = ds := by
    rw [List.takeWhile_append_of_pos hds, List.takeWhile_cons_of_neg (by simp [hstop]),
      List.append_nil]
  have hclose : (ds ++ '\x7d' :: after)[ds.length]? = some '\x7d' := by
    rw [List.getElem?_append_right (Nat.le_refl _), Nat.sub_self]
    rfl
  have hpos : 0 < ds.length := List.length_pos_iff.mpr hne
  rw [Lexeme.unicodeEscape]
  simp only [hdigits, hclose, hpos]
  rfl

theorem unicodeEscape_unit {a b c d : Char} (h : ∀ x ∈ [a, b, c, d], Lexeme.isHex x = true) :
    Lexeme.unicodeEscape ('\\' :: 'u' :: a :: b :: c :: d :: after) = 6 := by
  simp only [List.forall_mem_cons] at h
  obtain ⟨ha, hb, hc, hd, -⟩ := h
  rw [Lexeme.unicodeEscape.eq_def]
  split
  · rename_i heq
    simp only [List.cons.injEq, true_and] at heq
    exact absurd heq.1 (ne_brace_of_isHex ha).1
  · rename_i heq
    simp only [List.cons.injEq, true_and] at heq
    obtain ⟨rfl, rfl, rfl, rfl, rfl⟩ := heq
    rw [ha, hb, hc, hd]
    rfl
  · rename_i hnone
    exact absurd rfl (hnone a b c d after)

/-- An escape reaches to its end, unless it takes the character that comes after it. -/
theorem escape_body (he : e.Proper) (hafter : ∀ d ∈ after.head?, e.takes d = false) :
    Lexeme.escape ('\\' :: (e.body ++ after)) = e.body.length + 1 := by
  cases e with
  | single c =>
    show Lexeme.escape ('\\' :: c :: after) = 2
    rw [escape_single he]
    cases after with
    | nil => rfl
    | cons d after =>
      show (if (single c).takes d then 3 else 2) = 2
      rw [hafter d rfl]
      rfl
  | octal digits =>
    obtain ⟨hne, hdigits, hlength, -⟩ := he
    exact escape_octal hne hdigits hlength hafter
  | byte a b =>
    have ha := he a List.mem_cons_self
    have hb := he b (List.mem_cons_of_mem _ List.mem_cons_self)
    show (if Lexeme.isHex a && Lexeme.isHex b then 4 else 0) = 4
    rw [ha, hb]
    rfl
  | unit a b c d => exact unicodeEscape_unit he
  | point digits =>
    have hlength : (point digits).body.length + 1 = digits.length + 4 := by simp [body]
    have happend : (point digits).body ++ after = 'u' :: '\x7b' :: (digits ++ '\x7d' :: after) := by
      simp [body]
    rw [hlength, happend]
    exact unicodeEscape_point he.1 he.2

theorem codeOf_octal {a b : Char} (ha : Lexeme.isOctal a = true) (hb : Lexeme.isOctal b = true) :
    codeOf 8 [a, b] < 64 := by
  have ha := digitOf_lt_of_isOctal ha
  have hb := digitOf_lt_of_isOctal hb
  simp only [codeOf, List.foldl_cons, List.foldl_nil]
  omega

/-- Only the third digit makes the code of an octal escape too large for a byte. -/
theorem length_of_octal_taking (hne : ds ≠ []) (hds : ∀ d ∈ ds, Lexeme.isOctal d = true)
    (hc : Lexeme.isOctal c = true) (hlength : ds.length < 3) (hcode : 255 < codeOf 8 (ds ++ [c])) :
    ds.length = 2 := by
  match ds, hne, hlength with
  | [a], _, _ =>
    have hsmall : codeOf 8 [a, c] < 64 := codeOf_octal (hds a List.mem_cons_self) hc
    exact absurd hcode (by show ¬ 255 < codeOf 8 [a, c]; omega)
  | [_, _], _, _ => rfl

theorem takes_single_iff : (single c).takes d = true ↔ c = '?' ∧ Lexeme.isLineEnd d = true := by
  simp [takes]

theorem takes_octal_iff :
    (octal ds).takes d = true ↔ Lexeme.isOctal d = true ∧ ds.length < 3 := by
  simp [takes]

/-- An escape that takes the character that comes after it reaches to the end of that one. -/
theorem escape_taking (he : e.Proper) (hfollows : e.EndsBefore c)
    (htakes : e.takes c = true) :
    Lexeme.escape ('\\' :: (e.body ++ c :: after)) = e.body.length + 2 := by
  cases e with
  | single d =>
    show Lexeme.escape ('\\' :: d :: c :: after) = 3
    rw [escape_single he]
    show (if (single d).takes c then 3 else 2) = 3
    rw [htakes, if_pos rfl]
  | octal digits =>
    obtain ⟨hne, hdigits, -, -⟩ := he
    obtain ⟨hc, hlength⟩ := takes_octal_iff.mp htakes
    have htwo := length_of_octal_taking hne hdigits hc hlength (hfollows hc hlength)
    have hthree : (digits ++ [c]).length = 3 := by rw [List.length_append, htwo]; rfl
    have hall : ∀ d ∈ digits ++ [c], Lexeme.isOctal d = true :=
      List.forall_mem_append.mpr ⟨hdigits, List.forall_mem_singleton.mpr hc⟩
    have hlong : Lexeme.escape ('\\' :: ((digits ++ [c]) ++ after)) = (digits ++ [c]).length + 1 := by
      refine escape_octal (by simp) hall (Nat.le_of_eq hthree) fun d _ => ?_
      rw [takes, hthree]
      exact Bool.and_false _
    rw [List.append_assoc] at hlong
    show Lexeme.escape ('\\' :: (digits ++ ([c] ++ after))) = digits.length + 2
    rw [hlong, List.length_append]
    rfl
  | byte => cases htakes
  | unit => cases htakes
  | point => cases htakes

theorem escaped_single (h : (single c).Proper) : escaped [c] = .unit (single c).code := by
  obtain ⟨hc, hoctal⟩ := h
  by_cases hsign : c ∈ signCodes.map Prod.fst
  · simp only [signCodes, List.map_cons, List.map_nil, List.mem_cons, List.not_mem_nil, or_false]
      at hsign
    rcases hsign with rfl | rfl | rfl | rfl | rfl | rfl <;> rfl
  · have hcode : (single c).code = c.toNat := by
      rw [code, List.lookup_eq_none_iff.mpr, Option.getD_none]
      intro p hp
      rw [bne_iff_ne]
      rintro rfl
      exact hsign (List.mem_map_of_mem hp)
    rw [hcode]
    unfold Lexeme.isOctal at hoctal
    simp only [signCodes, List.map_cons, List.map_nil, List.mem_cons, List.not_mem_nil, or_false,
      not_or] at hsign hc
    simp [escaped, hsign, hc, hoctal]

theorem escaped_octal (hne : ds ≠ []) (hds : ∀ d ∈ ds, Lexeme.isOctal d = true) :
    escaped ds = .unit (codeOf 8 ds) := by
  obtain ⟨c, ds, rfl⟩ := List.exists_cons_of_ne_nil hne
  have hc := hds c List.mem_cons_self
  have hne : ∀ x : Char, Lexeme.isOctal x = false → c ≠ x := by
    rintro x hx rfl
    exact Bool.false_ne_true (hx.symm.trans hc)
  unfold Lexeme.isOctal at hc
  simp [escaped, hc, hne 'n' rfl, hne 't' rfl, hne 'r' rfl, hne 'b' rfl, hne 'f' rfl, hne 'v' rfl,
    hne '\r' rfl, hne '\n' rfl, hne '\u2028' rfl, hne '\u2029' rfl]

theorem filter_braces (h : ∀ d ∈ ds, Lexeme.isHex d = true) :
    ds.filter (fun d => d ≠ '\x7b' && d ≠ '\x7d') = ds := by
  rw [List.filter_eq_self]
  intro d hd
  simpa using ne_brace_of_isHex (h d hd)

/-- An escape is a piece for its code. -/
theorem escaped_body (he : e.Proper) : escaped e.body = .unit e.code := by
  cases e with
  | single c => exact escaped_single he
  | octal digits => exact escaped_octal he.1 he.2.1
  | byte a b => rfl
  | unit a b c d => exact congrArg (fun ds => Piece.unit (codeOf 16 ds)) (filter_braces he)
  | point digits =>
    have hfilter : digits.filter (fun d => d ≠ '\x7b' && d ≠ '\x7d') = digits := filter_braces he.2
    show Piece.unit (codeOf 16 (('\x7b' :: (digits ++ ['\x7d'])).filter _)) = _
    rw [List.filter_cons_of_neg (by simp), List.filter_append, hfilter,
      List.filter_cons_of_neg (by simp), List.filter_nil, List.append_nil]
    rfl

theorem escaped_taking (he : e.Proper) (htakes : e.takes c = true) :
    escaped (e.body ++ [c]) = .unit (e.taking c) := by
  cases e with
  | single d =>
    obtain ⟨rfl, -⟩ := takes_single_iff.mp htakes
    rfl
  | octal digits =>
    obtain ⟨hne, hdigits, -, -⟩ := he
    obtain ⟨hc, -⟩ := takes_octal_iff.mp htakes
    exact escaped_octal (by simp) (List.forall_mem_append.mpr ⟨hdigits, List.forall_mem_singleton.mpr hc⟩)
  | byte => cases htakes
  | unit => cases htakes
  | point => cases htakes

end Escape

/-! ### Text between quotes -/

section Lexing

variable {source : List Char} {q : Quote} {es : List Element} {run after cs : List Char}
variable {d : Draft source} {fuel : Nat} {ns ms : List (Node source)} {us vs : List Nat}

namespace Quote

/-- How far the characters reach that stand for themselves. -/
def fragment : Quote → List Char → Nat
  | .backtick => Lexeme.templateFragment
  | q => Lexeme.fragment q.char

/-- The rest of a text behind its opening quote. -/
def tail (q : Quote) (fuel : Nat) (d : Draft source) : Draft source :=
  match q with
  | .backtick => templateTail fuel d
  | q => quotedTail q.char fuel d

/-- A text from its opening quote on. -/
def read (q : Quote) (fuel : Nat) (d : Draft source) : Draft source :=
  match q with
  | .backtick => template fuel d
  | q => d.quoted q.char

def kind : Quote → Kind
  | .backtick => .template
  | _ => .string

end Quote

/-- The draft past a number of characters, which are a fragment if there are any. -/
def past (n : Nat) (d : Draft source) : Draft source :=
  if n = 0 then d else d.token .fragment n

theorem quotedTail_close {quote : Char} {rest : List Char} (hquote : quote ≠ '\\')
    (h : (past (Lexeme.fragment quote d.rest) d).rest = quote :: rest) :
    quotedTail quote (fuel + 1) d = (past (Lexeme.fragment quote d.rest) d).sign 1 := by
  unfold past at h ⊢
  rw [quotedTail]
  simp only [h]
  exact if_pos (beq_self_eq_true quote)

theorem quotedTail_escape {quote : Char} {e : List Char}
    (h : (past (Lexeme.fragment quote d.rest) d).rest = '\\' :: (e ++ cs))
    (he : Lexeme.escape ('\\' :: (e ++ cs)) = e.length + 1) :
    quotedTail quote (fuel + 1) d =
      quotedTail quote fuel ((past (Lexeme.fragment quote d.rest) d).token .escape ('\\' :: e).length) := by
  unfold past at h ⊢
  rw [quotedTail]
  simp only [h, he]
  rfl

theorem templateTail_close {rest : List Char}
    (h : (past (Lexeme.templateFragment d.rest) d).rest = '\x60' :: rest) :
    templateTail (fuel + 1) d = (past (Lexeme.templateFragment d.rest) d).sign 1 := by
  unfold past at h ⊢
  rw [templateTail]
  simp only [h]

theorem templateTail_escape {e : List Char}
    (h : (past (Lexeme.templateFragment d.rest) d).rest = '\\' :: (e ++ cs))
    (he : Lexeme.escape ('\\' :: (e ++ cs)) = e.length + 1) :
    templateTail (fuel + 1) d =
      templateTail fuel ((past (Lexeme.templateFragment d.rest) d).token .escape ('\\' :: e).length) := by
  unfold past at h ⊢
  rw [templateTail]
  simp only [h, he]
  rfl

theorem tail_close {rest : List Char} (h : (past (q.fragment d.rest) d).rest = q.char :: rest) :
    q.tail (fuel + 1) d = (past (q.fragment d.rest) d).sign 1 := by
  cases q with
  | backtick => exact templateTail_close h
  | single => exact quotedTail_close (by decide) h
  | double => exact quotedTail_close (by decide) h

theorem tail_escape {e : List Char} (h : (past (q.fragment d.rest) d).rest = '\\' :: (e ++ cs))
    (he : Lexeme.escape ('\\' :: (e ++ cs)) = e.length + 1) :
    q.tail (fuel + 1) d =
      q.tail fuel ((past (q.fragment d.rest) d).token .escape ('\\' :: e).length) := by
  cases q with
  | backtick => exact templateTail_escape h he
  | single => exact quotedTail_escape h he
  | double => exact quotedTail_escape h he

/-! ### Runs -/

theorem fragment_append {quote : Char} (hrun : ∀ c ∈ run, c ∉ [quote, '\\', '\r', '\n'])
    (hafter : after.head? = some quote ∨ after.head? = some '\\') :
    Lexeme.fragment quote (run ++ after) = run.length := by
  have hrun : ∀ c ∈ run, (!(c == quote || c == '\\' || c == '\r' || c == '\n')) = true := by
    intro c hc
    simpa [and_assoc] using hrun c hc
  have hstop : (after.takeWhile fun c => !(c == quote || c == '\\' || c == '\r' || c == '\n')) = [] := by
    obtain ⟨c, t⟩ := after
    · rfl
    · rcases hafter with h | h <;> cases h <;> simp
  rw [Lexeme.fragment, List.takeWhile_append_of_pos hrun, hstop, List.append_nil]

theorem templateFragment_append (hrun : ∀ c ∈ run, c ∉ ['\x60', '\\'])
    (hchain : run.IsChain fun c d => ¬ (c = '$' ∧ d = '\x7b'))
    (hafter : after.head? = some '\x60' ∨ after.head? = some '\\') :
    Lexeme.templateFragment (run ++ after) = run.length := by
  induction run with
  | nil =>
    obtain ⟨c, t⟩ := after
    · rfl
    · rcases hafter with h | h <;> cases h <;> rfl
  | cons c run ih =>
    rw [List.forall_mem_cons] at hrun
    have hc : (c == '\x60' || c == '\\') = false := by simpa using hrun.1
    have hstop : ∀ t, c = '$' → run ++ after ≠ '\x7b' :: t := by
      rintro t rfl heq
      cases run with
      | nil =>
        have hhead : after.head? = some '\x7b' := congrArg List.head? heq
        rw [hhead] at hafter
        simp at hafter
      | cons x run =>
        obtain rfl := (List.cons.inj heq).1
        exact (List.isChain_cons_cons.mp hchain).1 ⟨rfl, rfl⟩
    rw [List.cons_append, Lexeme.templateFragment.eq_def]
    split
    · rename_i heq
      exact absurd (List.cons.inj heq).2 (hstop _ (List.cons.inj heq).1)
    · rename_i heq
      obtain ⟨rfl, rfl⟩ := List.cons.inj heq
      rw [hc, if_neg Bool.false_ne_true, ih hrun.2 hchain.tail, List.length_cons, Nat.add_comm]
    · rename_i heq
      cases heq

/-- The nodes of a text between quotes, with the code units that they stand for. -/
structure Stands (ns : List (Node source)) (us : List Nat) : Prop where
  leaves : ∀ n ∈ ns, n.IsLeafOf Kind.isQuotedPart
  unbroken : Piece.continuation ∉ piecesOf ns
  units : (piecesOf ns).flatMap Piece.units = us

theorem piecesOf_append (ns ms : List (Node source)) :
    piecesOf (ns ++ ms) = piecesOf ns ++ piecesOf ms := by
  induction ns with
  | nil => rfl
  | cons n ns ih =>
    rw [List.cons_append, piecesOf, piecesOf, ih]
    split <;> rfl

theorem Stands.append (h : Stands ns us) (h' : Stands ms vs) : Stands (ns ++ ms) (us ++ vs) where
  leaves := List.forall_mem_append.mpr ⟨h.leaves, h'.leaves⟩
  unbroken := by
    rw [piecesOf_append, List.mem_append, not_or]
    exact ⟨h.unbroken, h'.unbroken⟩
  units := by rw [piecesOf_append, List.flatMap_append, h.units, h'.units]

theorem Stands.value (h : Stands ns us) : cook (piecesOf ns) = String.ofList (decode us) := by
  rw [cook_eq h.unbroken, h.units]

theorem stands_sign (m : Text.Mark source) (s : String) : Stands [leaf .punctuation m s] [] where
  leaves := List.forall_mem_singleton.mpr ⟨_, m, s, rfl, rfl⟩
  unbroken := List.not_mem_nil
  units := rfl

theorem stands_escape (m : Text.Mark source) {e : List Char} {code : Nat}
    (h : escaped e = .unit code) :
    Stands [leaf .escape m (String.ofList ('\\' :: e))] (pointUnits code) := by
  have hpieces : piecesOf [leaf .escape m (String.ofList ('\\' :: e))] = [.unit code] := by
    simp only [piecesOf, kind, text, String.toList_ofList, List.drop_succ_cons, List.drop_zero, h]
  refine ⟨List.forall_mem_singleton.mpr ⟨_, m, _, rfl, rfl⟩, ?_, ?_⟩
  · rw [hpieces]
    simp
  · rw [hpieces]
    exact List.append_nil _

theorem stands_fragment (m : Text.Mark source) (run : List Char) :
    Stands [leaf .fragment m (String.ofList run)] (run.flatMap fun c => pointUnits c.toNat) := by
  have hpieces : piecesOf [leaf .fragment m (String.ofList run)] = [.raw run] := by
    simp only [piecesOf, kind, text, String.toList_ofList]
  refine ⟨List.forall_mem_singleton.mpr ⟨_, m, _, rfl, rfl⟩, ?_, ?_⟩
  · rw [hpieces]
    simp
  · rw [hpieces]
    exact List.append_nil _

theorem leads_past (hd : d.rest = run ++ after) :
    ∃ ns, Stands ns (run.flatMap fun c => pointUnits c.toNat) ∧
      Leads d (past run.length d) ns after := by
  cases run with
  | nil => exact ⟨[], ⟨List.forall_mem_nil _, List.not_mem_nil, rfl⟩, ⟨rfl, hd⟩⟩
  | cons c run => exact ⟨_, stands_fragment _ _, leads_token .fragment hd⟩

/-! ### Divided texts -/

theorem Divided.tail {e : Element} (h : Divided q (e :: es)) : Divided q es :=
  ⟨(List.forall_mem_cons.mp h.fits).2, h.follows.tail⟩

theorem Divided.right {es' : List Element} (h : Divided q (es ++ es')) : Divided q es' :=
  ⟨(List.forall_mem_append.mp h.fits).2, h.follows.right_of_append⟩

theorem Quote.Holds.not_mem {c : Char} (h : q.Holds c) (hq : q ≠ .backtick) :
    c ∉ [q.char, '\\', '\r', '\n'] := by
  obtain ⟨hc, hfeed⟩ := h
  simp only [List.mem_cons, List.not_mem_nil, or_false, not_or] at hc ⊢
  exact ⟨hc.1, hc.2.1, hc.2.2, fun heq => hq (hfeed heq)⟩

/-- The characters of a run stand for themselves. -/
theorem Divided.fragment_eq (h : Divided q (run.map .raw ++ es))
    (hafter : after.head? = some q.char ∨ after.head? = some '\\') :
    q.fragment (run ++ after) = run.length := by
  have hfits := (List.forall_mem_append.mp h.fits).1
  rw [List.forall_mem_map] at hfits
  have hfits : ∀ c ∈ run, q.Holds c := hfits
  cases q with
  | backtick =>
    have hchain : run.IsChain fun c d => Quote.backtick.Follows (.raw c) (.raw d) :=
      (List.isChain_map _).mp h.follows.left_of_append
    refine templateFragment_append (fun c hc => ?_) (hchain.imp fun c d hfollows heq => ?_) hafter
    · have hc := (hfits c hc).1
      simp only [List.mem_cons, List.not_mem_nil, or_false, not_or] at hc ⊢
      exact ⟨hc.1, hc.2.1⟩
    · exact hfollows ⟨rfl, heq⟩
  | single => exact fragment_append (fun c hc => (hfits c hc).not_mem (by decide)) hafter
  | double => exact fragment_append (fun c hc => (hfits c hc).not_mem (by decide)) hafter

/-- What comes after an escape is the next escape or the end, if it is no character that stands for
itself. -/
theorem head?_chars (h : ∀ c es', es ≠ .raw c :: es') (rest : List Char) :
    (es.flatMap Element.chars ++ q.char :: rest).head? = some q.char ∨
      (es.flatMap Element.chars ++ q.char :: rest).head? = some '\\' := by
  cases es with
  | nil => exact .inl rfl
  | cons e es =>
    cases e with
    | raw c => exact absurd rfl (h c es)
    | escape e => exact .inr rfl

theorem Escape.not_takes {e : Escape} {c : Char} (hc : c = q.char ∨ c = '\\') : e.takes c = false := by
  have hplain : Lexeme.isOctal c = false ∧ Lexeme.isLineEnd c = false := by
    rcases hc with rfl | rfl
    · cases q <;> decide
    · decide
  cases e with
  | single d => rw [takes, hplain.2, Bool.and_false]
  | octal digits => rw [takes, hplain.1, Bool.false_and]
  | byte => rfl
  | unit => rfl
  | point => rfl

/-- Reading comes past a run and an escape, of which a part may be taken from what follows. -/
theorem leads_tail_escape {e : List Char} {code : Nat}
    (hrun : q.fragment (run ++ '\\' :: (e ++ cs)) = run.length)
    (hescape : Lexeme.escape ('\\' :: (e ++ cs)) = e.length + 1) (hcode : escaped e = .unit code)
    (hd : d.rest = run ++ '\\' :: (e ++ cs))
    (hrest : ∀ d' : Draft source, d'.rest = cs →
      ∃ ns, Stands ns us ∧ Leads d' (q.tail fuel d') ns after) :
    ∃ ns, Stands ns ((run.flatMap fun c => pointUnits c.toNat) ++ (pointUnits code ++ us)) ∧
      Leads d (q.tail (fuel + 1) d) ns after := by
  obtain ⟨ns, hns, hleads⟩ := leads_past hd
  rw [← hrun, ← hd] at hleads
  have htoken := leads_token .escape (show _ = ('\\' :: e) ++ cs from hleads.rest_eq)
  obtain ⟨ms, hms, hleads'⟩ := hrest _ htoken.rest_eq
  rw [tail_escape hleads.rest_eq hescape]
  exact ⟨_, hns.append ((stands_escape _ hcode).append hms), hleads.trans (htoken.trans hleads')⟩

/-- What comes after an element that takes nothing is heard by itself. -/
theorem heard_cons {e : Element} (h : ∀ x, e = .escape x → ∀ d, x.takes d = false) :
    heard (e :: es) = e.units ++ heard es := by
  rw [heard.eq_def (e :: es)]
  split
  · rename_i x c es' heq
    obtain ⟨rfl, rfl⟩ := List.cons.inj heq
    rw [h x rfl c, if_neg Bool.false_ne_true]
    rfl
  · rename_i heq
    obtain ⟨rfl, rfl⟩ := List.cons.inj heq
    rfl
  · rename_i heq
    cases heq

/-- The rest of a divided text is read up to its closing quote. Characters that stand for themselves
are put off until the one comes at which their run ends. -/
theorem leads_tail (run : List Char) {rest : List Char} (hfuel : es.length < fuel)
    (h : Divided q (run.map .raw ++ es))
    (hd : d.rest = run ++ (es.flatMap Element.chars ++ q.char :: rest)) :
    ∃ ns, Stands ns ((run.flatMap fun c => pointUnits c.toNat) ++ heard es) ∧
      Leads d (q.tail fuel d) ns rest := by
  induction es using heard.induct generalizing d fuel run with
  | case1 e c es htakes ih =>
    -- The escape and the character that it takes are one token.
    obtain ⟨k, rfl⟩ : ∃ k, fuel = k + 1 := ⟨fuel - 1, by omega⟩
    have hescape := List.forall_mem_cons.mp h.right.fits
    have hfollows := (List.isChain_cons_cons.mp h.right.follows).1
    have hd : d.rest = run ++ '\\' :: ((e.body ++ [c]) ++
        (es.flatMap Element.chars ++ q.char :: rest)) := by
      rw [hd]
      simp [Element.chars]
    have hlength : Lexeme.escape ('\\' :: (e.body ++ c :: (es.flatMap Element.chars ++ q.char :: rest))) =
        e.body.length + 2 :=
      Escape.escape_taking hescape.1 hfollows htakes
    rw [heard, if_pos htakes]
    refine leads_tail_escape (h.fragment_eq (.inr rfl)) ?_ (Escape.escaped_taking hescape.1 htakes)
      hd fun d' hd' => ?_
    · simpa using hlength
    · exact ih [] (by simp at hfuel; omega) h.right.tail.tail hd'
  | case2 e c es htakes ih =>
    obtain ⟨k, rfl⟩ : ∃ k, fuel = k + 1 := ⟨fuel - 1, by omega⟩
    have hescape := List.forall_mem_cons.mp h.right.fits
    rw [heard, if_neg htakes]
    refine leads_tail_escape (h.fragment_eq (.inr rfl)) ?_ (Escape.escaped_body hescape.1) ?_
      fun d' hd' => ih [] (by simp at hfuel ⊢; omega) h.right.tail hd'
    · refine Escape.escape_body hescape.1 fun d hd => ?_
      obtain rfl : c = d := by simpa [Element.chars] using hd
      simpa using htakes
    · rw [hd]
      simp [Element.chars]
  | case3 e es hes ih =>
    cases e with
    | raw c =>
      -- Nothing is read yet: the character joins the run.
      have hlonger : Divided q ((run ++ [c]).map .raw ++ es) := by simpa using h
      have hd : d.rest = (run ++ [c]) ++ (es.flatMap Element.chars ++ q.char :: rest) := by
        rw [hd]
        simp [Element.chars]
      rw [List.length_cons] at hfuel
      have hread := ih (run ++ [c]) (Nat.lt_of_succ_lt hfuel) hlonger hd
      rw [heard]
      · simpa [Element.units] using hread
      · exact hes
    | escape e =>
      obtain ⟨k, rfl⟩ : ∃ k, fuel = k + 1 := ⟨fuel - 1, by omega⟩
      have hescape := List.forall_mem_cons.mp h.right.fits
      have hhead := head?_chars (q := q) (fun c es' heq => hes e c es' rfl heq) rest
      rw [heard]
      · refine leads_tail_escape (h.fragment_eq (.inr rfl)) ?_ (Escape.escaped_body hescape.1) ?_
          fun d' hd' => ih [] (by simp at hfuel ⊢; omega) h.right.tail hd'
        · refine Escape.escape_body hescape.1 fun d hd => Escape.not_takes (q := q) ?_
          rw [List.nil_append, Option.mem_def] at hd
          rw [hd, Option.some_inj, Option.some_inj] at hhead
          exact hhead
        · rw [hd]
          simp [Element.chars]
      · exact hes
  | case4 =>
    obtain ⟨k, rfl⟩ : ∃ k, fuel = k + 1 := ⟨fuel - 1, by omega⟩
    obtain ⟨ns, hns, hleads⟩ := leads_past hd
    have hrun : q.fragment (run ++ q.char :: rest) = run.length := h.fragment_eq (.inl rfl)
    rw [← hrun] at hleads
    have hd : d.rest = run ++ q.char :: rest := hd
    rw [← hd] at hleads
    rw [tail_close hleads.rest_eq]
    exact ⟨_, hns.append (stands_sign _ _), hleads.trans (leads_sign hleads.rest_eq)⟩

theorem length_le_flatMap_chars (h : Divided q es) : es.length ≤ (es.flatMap Element.chars).length := by
  induction es with
  | nil => exact Nat.le_refl 0
  | cons e es ih =>
    have hone : 1 ≤ e.chars.length := by
      cases e <;> simp [Element.chars]
    rw [List.flatMap_cons, List.length_append, List.length_cons]
    have := ih h.tail
    omega

/-- A string is read if what comes after its opening quote is. -/
theorem leads_read_of_tail {P : List (Node source) → Prop} {rest : List Char} {n : Nat}
    (hfuel : n + 1 < fuel) (hn : n ≤ cs.length) (hd : d.rest = q.char :: cs)
    (htail : ∀ (k : Nat) (d' : Draft source), n < k → d'.rest = cs →
      ∃ ns, P ns ∧ Leads d' (q.tail k d') ns rest) :
    ∃ a b m s ns, P ns ∧
      Leads d (q.read fuel d) [.branch q.kind a b (leaf .punctuation m s :: ns)] rest := by
  have hopen : (fresh d.cursor).rest = q.char :: cs := hd
  have hsign := leads_sign hopen
  have hinner {k : Nat} (hk : n < k) : ∃ m s ns, P ns ∧
      Leads (fresh d.cursor) (q.tail k (sign 1 (fresh d.cursor))) (leaf .punctuation m s :: ns) rest := by
    obtain ⟨ns, hns, hleads⟩ := htail k _ hk hsign.rest_eq
    exact ⟨_, _, ns, hns, hsign.trans hleads⟩
  have hlength : n < (fresh d.cursor).rest.length + 1 := by
    rw [hopen, List.length_cons]
    omega
  cases q with
  | backtick =>
    obtain ⟨k, rfl⟩ : ∃ k, fuel = k + 1 := ⟨fuel - 1, by omega⟩
    obtain ⟨m, s, ns, hns, hleads⟩ := hinner (k := k) (by omega)
    exact ⟨_, _, m, s, ns, hns, hleads.close .template⟩
  | single =>
    obtain ⟨m, s, ns, hns, hleads⟩ := hinner hlength
    exact ⟨_, _, m, s, ns, hns, hleads.close .string⟩
  | double =>
    obtain ⟨m, s, ns, hns, hleads⟩ := hinner hlength
    exact ⟨_, _, m, s, ns, hns, hleads.close .string⟩

/-- A divided text in quotes is one node, which stands for the code units that are heard. -/
theorem leads_read {rest : List Char} (hfuel : es.length + 1 < fuel) (h : Divided q es)
    (hd : d.rest = literal q es ++ rest) :
    ∃ a b ns, Stands ns (heard es) ∧ Leads d (q.read fuel d) [.branch q.kind a b ns] rest := by
  have hopen : d.rest = q.char :: (es.flatMap Element.chars ++ q.char :: rest) := by
    rw [hd, literal]
    simp
  have hlength : es.length ≤ (es.flatMap Element.chars ++ q.char :: rest).length := by
    rw [List.length_append]
    exact Nat.le_add_right_of_le (length_le_flatMap_chars h)
  obtain ⟨a, b, m, s, ns, hns, hleads⟩ := leads_read_of_tail hfuel hlength hopen
    fun k d' hk hd' => leads_tail [] hk h hd'
  exact ⟨a, b, _, (stands_sign m s).append hns, hleads⟩

end Lexing

end Workyard.Options
