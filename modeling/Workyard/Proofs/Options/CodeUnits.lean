import Workyard.Options.Cooking

/-!
# Code units

A string of a script is a sequence of code units of sixteen bits. Two halves that stand side by side
make one character, and a half without its other one becomes the replacement character. Cooking
pieces comes to the same: a high half that is pending is the first of the units that are left.
-/

namespace Workyard.Options

set_option autoImplicit false

variable {code u v high : Nat} {us vs xs ys : List Nat} {ps : List Piece} {text : List Char}

/-- The characters that code units make. -/
def decode : List Nat → List Char
  | [] => []
  | [u] => [charOf u]
  | u :: v :: us =>
    if isHighHalf u && isLowHalf v then joinHalves u v :: decode us
    else charOf u :: decode (v :: us)

/-- The code units of a code point, those of the replacement character for what is too large to be
one. -/
def pointUnits (code : Nat) : List Nat :=
  if code < 0x10000 then [code]
  else if code < 0x110000 then
    [0xD800 + (code - 0x10000) / 0x400, 0xDC00 + (code - 0x10000) % 0x400]
  else [replacement.toNat]

/-- The code units of a piece. -/
def Piece.units : Piece → List Nat
  | .raw text => text.flatMap fun c => pointUnits c.toNat
  | .unit code => pointUnits code
  | .continuation => []

/-! ### Halves -/

theorem isHighHalf_iff : isHighHalf code = true ↔ 0xD800 ≤ code ∧ code ≤ 0xDBFF := by
  simp [isHighHalf]

theorem isLowHalf_iff : isLowHalf code = true ↔ 0xDC00 ≤ code ∧ code ≤ 0xDFFF := by
  simp [isLowHalf]

/-- A character is no half. -/
theorem not_half_toNat (c : Char) : isHighHalf c.toNat = false ∧ isLowHalf c.toNat = false := by
  have hvalid : c.toNat.isValidChar := c.valid
  rw [Bool.eq_false_iff, Bool.eq_false_iff, ne_eq, ne_eq, isHighHalf_iff, isLowHalf_iff]
  unfold Nat.isValidChar at hvalid
  omega

theorem not_half_of_lt (h : code < 0xD800) : isHighHalf code = false ∧ isLowHalf code = false := by
  rw [Bool.eq_false_iff, Bool.eq_false_iff, ne_eq, ne_eq, isHighHalf_iff, isLowHalf_iff]
  omega

theorem charOf_toNat (c : Char) : charOf c.toNat = c := by
  have hvalid : c.toNat.isValidChar := c.valid
  rw [charOf, if_pos hvalid]
  exact Char.ofNat_toNat c

theorem charOf_half (h : isHighHalf code = true ∨ isLowHalf code = true) :
    charOf code = replacement := by
  rw [isHighHalf_iff, isLowHalf_iff] at h
  refine if_neg ?_
  unfold Nat.isValidChar
  omega

/-! ### Decoding -/

theorem decode_cons_of_not_high (hu : isHighHalf u = false) :
    decode (u :: us) = charOf u :: decode us := by
  cases us with
  | nil => rfl
  | cons v us => rw [decode, hu, Bool.false_and, if_neg Bool.false_ne_true]

theorem decode_cons_of_not_low (hus : ∀ v ∈ us.head?, isLowHalf v = false) :
    decode (u :: us) = charOf u :: decode us := by
  cases us with
  | nil => rfl
  | cons v us => rw [decode, hus v rfl, Bool.and_false, if_neg Bool.false_ne_true]

theorem decode_halves (hu : isHighHalf u = true) (hv : isLowHalf v = true) :
    decode (u :: v :: us) = joinHalves u v :: decode us := by
  rw [decode, hu, hv]
  rfl

/-- A unit that is no half stands alone. -/
theorem decode_append_cons (hu : isHighHalf u = false ∧ isLowHalf u = false) :
    decode (vs ++ u :: us) = decode vs ++ charOf u :: decode us := by
  induction vs using decode.induct with
  | case1 => exact decode_cons_of_not_high hu.1
  | case2 v =>
    show decode (v :: u :: us) = charOf v :: charOf u :: decode us
    rw [decode_cons_of_not_low (by simpa using hu.2), decode_cons_of_not_high hu.1]
  | case3 v w vs hhalves ih =>
    rw [List.cons_append, List.cons_append, decode, if_pos hhalves, ih, decode, if_pos hhalves,
      List.cons_append]
  | case4 v w vs hapart ih =>
    rw [List.cons_append, List.cons_append, decode, if_neg hapart, ← List.cons_append, ih, decode,
      if_neg hapart, List.cons_append]

/-- The units of a code point that is no high half do not depend on what comes after them. -/
theorem decode_pointUnits (hcode : isHighHalf code = false) :
    decode (pointUnits code ++ us) = charOf code :: decode us := by
  unfold pointUnits
  split
  · exact decode_cons_of_not_high hcode
  · split
    · have hhigh : isHighHalf (0xD800 + (code - 0x10000) / 0x400) = true := by
        rw [isHighHalf_iff]
        omega
      have hlow : isLowHalf (0xDC00 + (code - 0x10000) % 0x400) = true := by
        rw [isLowHalf_iff]
        omega
      have hjoin : joinHalves (0xD800 + (code - 0x10000) / 0x400) (0xDC00 + (code - 0x10000) % 0x400) =
          charOf code := by
        rw [joinHalves, Nat.add_sub_cancel_left, Nat.add_sub_cancel_left, Nat.add_assoc,
          Nat.div_add_mod', Nat.add_sub_cancel' (by omega)]
      rw [← hjoin]
      exact decode_halves hhigh hlow
    · have hlarge : charOf code = replacement := by
        refine if_neg ?_
        unfold Nat.isValidChar
        omega
      rw [hlarge, ← charOf_toNat replacement]
      exact decode_cons_of_not_high (not_half_toNat replacement).1

/-- The units of a character make the character again. -/
theorem decode_chars (text : List Char) (us : List Nat) :
    decode (text.flatMap (fun c => pointUnits c.toNat) ++ us) = text ++ decode us := by
  induction text with
  | nil => rfl
  | cons c text ih =>
    rw [List.flatMap_cons, List.append_assoc, decode_pointUnits (not_half_toNat c).1, ih,
      charOf_toNat]
    rfl

theorem head?_pointUnits (us : List Nat) (hcode : isLowHalf code = false) :
    ∀ v ∈ (pointUnits code ++ us).head?, isLowHalf v = false := by
  intro v hv
  unfold pointUnits at hv
  split at hv
  · obtain rfl : code = v := by simpa using hv
    exact hcode
  · split at hv
    · obtain rfl : 0xD800 + (code - 0x10000) / 0x400 = v := by simpa using hv
      rw [Bool.eq_false_iff, ne_eq, isLowHalf_iff]
      omega
    · obtain rfl : replacement.toNat = v := by simpa using hv
      decide

/-! ### Cooking -/

theorem pointUnits_half (h : isHighHalf code = true ∨ isLowHalf code = true) :
    pointUnits code = [code] := by
  rw [isHighHalf_iff, isLowHalf_iff] at h
  exact if_pos (by omega)

/-- A high half that is pending stays alone when no low half comes. -/
theorem decode_pending {pending : Option Nat} (hpending : ∀ high ∈ pending, isHighHalf high = true)
    (hus : ∀ v ∈ us.head?, isLowHalf v = false) :
    decode (pending.toList ++ us) = flush pending ++ decode us := by
  cases pending with
  | none => rfl
  | some high =>
    show decode (high :: us) = replacement :: decode us
    rw [decode_cons_of_not_low hus, charOf_half (.inl (hpending high rfl))]

theorem cookFrom_unit_of_not_low {pending : Option Nat} (hcode : isLowHalf code = false) :
    cookFrom pending (.unit code :: ps) =
      flush pending ++ cookFrom none (.unit code :: ps) := by
  cases pending with
  | none => rfl
  | some high =>
    rw [cookFrom, cookFrom, hcode, if_neg Bool.false_ne_true]
    split <;> rfl

theorem cookFrom_unit_of_low {code : Nat} (hcode : isLowHalf code = true) :
    cookFrom (some high) (.unit code :: ps) = joinHalves high code :: cookFrom none ps := by
  rw [cookFrom, hcode, if_pos rfl]

/-- Without continuations, the value of pieces is what their code units make. -/
theorem cookFrom_eq {pending : Option Nat} (hpending : ∀ high ∈ pending, isHighHalf high = true)
    (hps : Piece.continuation ∉ ps) :
    cookFrom pending ps = decode (pending.toList ++ ps.flatMap Piece.units) := by
  induction ps generalizing pending with
  | nil =>
    cases pending with
    | none => rfl
    | some high =>
      show [replacement] = [charOf high]
      rw [charOf_half (.inl (hpending high rfl))]
  | cons p ps ih =>
    rw [List.mem_cons, not_or] at hps
    have hnone : cookFrom none ps = decode (ps.flatMap Piece.units) :=
      ih (by rintro _ ⟨⟩) hps.2
    rw [List.flatMap_cons]
    cases p with
    | continuation => exact absurd rfl hps.1
    | raw text =>
      cases text with
      | nil => exact ih hpending hps.2
      | cons c text =>
        have hhead := head?_pointUnits (text.flatMap (fun c => pointUnits c.toNat) ++
          ps.flatMap Piece.units) (not_half_toNat c).2
        rw [← List.append_assoc] at hhead
        show flush pending ++ (c :: text) ++ cookFrom none ps = _
        rw [hnone, List.append_assoc, ← decode_chars]
        exact (decode_pending hpending hhead).symm
    | unit code =>
      rw [Piece.units]
      cases hlow : isLowHalf code with
      | false =>
        rw [cookFrom_unit_of_not_low hlow, decode_pending hpending (head?_pointUnits _ hlow), cookFrom]
        congr 1
        cases hhigh : isHighHalf code with
        | false => rw [if_neg Bool.false_ne_true, decode_pointUnits hhigh, hnone]
        | true =>
          rw [if_pos rfl, pointUnits_half (.inl hhigh)]
          exact ih (by simpa using hhigh) hps.2
      | true =>
        have hhigh : isHighHalf code = false := by
          rw [isLowHalf_iff] at hlow
          rw [Bool.eq_false_iff, ne_eq, isHighHalf_iff]
          omega
        cases pending with
        | none =>
          rw [cookFrom, hhigh]
          rw [if_neg Bool.false_ne_true, Option.toList_none, List.nil_append,
            decode_pointUnits hhigh, hnone]
        | some high =>
          rw [cookFrom_unit_of_low hlow, pointUnits_half (.inr hlow), hnone]
          exact (decode_halves (hpending high rfl) hlow).symm

/-- The value of pieces without continuations. -/
theorem cook_eq (hps : Piece.continuation ∉ ps) :
    cook ps = String.ofList (decode (ps.flatMap Piece.units)) := by
  rw [cook, cookFrom_eq (by rintro _ ⟨⟩) hps]
  rfl

end Workyard.Options
