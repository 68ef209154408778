import Mathlib.Data.List.Lex
import Mathlib.Data.String.Basic

/-!
# The order of bytes

The UTF-8 forms of two characters part at a byte that is smaller for the smaller character. So the
order of texts by their characters is the order by their bytes.
-/

namespace Workyard.Text

set_option autoImplicit false

/-- The bytes of a text. -/
def bytes (s : String) : List UInt8 :=
  s.toUTF8.data.toList

theorem bytes_eq (s : String) : bytes s = s.toList.flatMap String.utf8EncodeChar := by
  rw [bytes, String.toUTF8_eq_toByteArray, ← String.utf8Encode_toList, List.utf8Encode,
    List.data_toByteArray]

/-- Two lists part at a byte that is smaller in the first one. -/
inductive Parts : List UInt8 → List UInt8 → Prop where
  | here {a b : UInt8} {as bs : List UInt8} (h : a < b) : Parts (a :: as) (b :: bs)
  | later {a : UInt8} {as bs : List UInt8} (h : Parts as bs) : Parts (a :: as) (a :: bs)

namespace Parts

variable {as bs : List UInt8}

/-- What follows on either side does not matter. -/
theorem append_lt (h : Parts as bs) (as' bs' : List UInt8) : as ++ as' < bs ++ bs' := by
  induction h with
  | here h => exact List.Lex.rel h
  | later _ ih => exact List.Lex.cons ih

theorem ofNat_here {m n : ℕ} (hn : n < 256) (h : m < n) :
    Parts (UInt8.ofNat m :: as) (UInt8.ofNat n :: bs) := by
  refine .here (UInt8.lt_iff_toNat_lt.mpr ?_)
  rwa [UInt8.toNat_ofNat_of_lt' (h.trans hn), UInt8.toNat_ofNat_of_lt' hn]

theorem ofNat_cons {m n : ℕ} (hn : n < 256) (hle : m ≤ n) (h : m = n → Parts as bs) :
    Parts (UInt8.ofNat m :: as) (UInt8.ofNat n :: bs) := by
  rcases Nat.lt_or_eq_of_le hle with hlt | rfl
  · exact ofNat_here hn hlt
  · exact .later (h rfl)

end Parts

/-- Forms of different lengths part at their first bytes, those of one length at the first digit
that differs. -/
theorem parts_utf8EncodeChar {c c' : Char} (h : c < c') :
    Parts (String.utf8EncodeChar c) (String.utf8EncodeChar c') := by
  have hlt : c.val.toNat < c'.val.toNat := h
  have hmax : c'.val.toNat < 0x110000 := by
    rcases c'.valid with h | h
    · exact Nat.lt_trans h (by decide)
    · exact h.2
  unfold String.utf8EncodeChar
  generalize c.val.toNat = v at hlt
  generalize c'.val.toNat = w at hlt hmax
  dsimp only
  split_ifs
  · exact .ofNat_here (by omega) hlt
  · exact .ofNat_here (by omega) (by omega)
  · exact .ofNat_here (by omega) (by omega)
  · exact .ofNat_here (by omega) (by omega)
  · omega
  · refine .ofNat_cons (by omega) (by omega) fun _ => ?_
    exact .ofNat_here (by omega) (by omega)
  · exact .ofNat_here (by omega) (by omega)
  · exact .ofNat_here (by omega) (by omega)
  · omega
  · omega
  · refine .ofNat_cons (by omega) (by omega) fun _ => ?_
    refine .ofNat_cons (by omega) (by omega) fun _ => ?_
    exact .ofNat_here (by omega) (by omega)
  · exact .ofNat_here (by omega) (by omega)
  · omega
  · omega
  · omega
  · refine .ofNat_cons (by omega) (by omega) fun _ => ?_
    refine .ofNat_cons (by omega) (by omega) fun _ => ?_
    refine .ofNat_cons (by omega) (by omega) fun _ => ?_
    exact .ofNat_here (by omega) (by omega)

theorem flatMap_lt {cs cs' : List Char} (h : List.Lex (· < ·) cs cs') :
    cs.flatMap String.utf8EncodeChar < cs'.flatMap String.utf8EncodeChar := by
  induction h with
  | @nil c cs =>
    obtain ⟨b, bs, hbytes⟩ := List.exists_cons_of_length_pos
      (by rw [String.length_utf8EncodeChar]; exact c.utf8Size_pos)
    rw [List.flatMap_nil, List.flatMap_cons, hbytes]
    exact List.Lex.nil
  | cons _ ih => exact List.Lex.append_left _ ih _
  | rel h => exact (parts_utf8EncodeChar h).append_lt _ _

/-- Texts are ordered by their bytes. -/
theorem lt_iff_bytes {s t : String} : s < t ↔ bytes s < bytes t := by
  have hbytes : ∀ {s t : String}, s < t → bytes s < bytes t := by
    intro s t h
    rw [bytes_eq, bytes_eq]
    exact flatMap_lt (String.lt_iff_toList_lt.mp h)
  refine ⟨hbytes, fun h => ?_⟩
  rcases lt_trichotomy s t with hlt | rfl | hgt
  · exact hlt
  · exact absurd h (List.lt_irrefl _)
  · exact absurd h (List.lt_asymm (hbytes hgt))

end Workyard.Text
