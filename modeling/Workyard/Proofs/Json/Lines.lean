import Workyard.Proofs.Json.Numerals
import Workyard.Proofs.Json.Strings
import Workyard.Proofs.Text.Lines

/-!
# The lines of a written document

No line of a pretty text is blank or ends in white space, whatever the strings of the document
hold, for their line feeds are escaped. Such a text is tidy.
-/

namespace Workyard.Json

set_option autoImplicit false

open Text

theorem inline_of_forall {cs : List Char} (h : ∀ c ∈ cs, c ≠ '\r' ∧ c ≠ '\n') : Inline cs where
  no_return hr := (h _ hr).1 rfl
  no_feed hn := (h _ hn).2 rfl

theorem inline_stringChars (s : String) : Inline (stringChars s) := by
  refine inline_of_forall fun c hc => ?_
  have hle := toNat_of_mem_stringChars hc
  constructor
  all_goals
    rintro rfl
    exact absurd hle (by decide)

theorem firm_stringChars (s : String) : Firm (stringChars s) :=
  Inline.firm (inline_stringChars s) (by decide)

theorem inline_indent (level : Nat) : Inline (indent level) := by
  refine inline_of_forall fun c hc => ?_
  rw [List.eq_of_mem_replicate hc]
  decide

theorem isBlankChar_of_isNumeric {c : Char} (h : Reader.IsNumeric c) :
    isBlankChar c = false ∧ c ≠ '\r' ∧ c ≠ '\n' := by
  rcases h with h | rfl | rfl | rfl | rfl
  · have hrange : 48 ≤ c.toNat ∧ c.toNat ≤ 57 := by
      simp only [Char.isDigit, Bool.and_eq_true, decide_eq_true_eq] at h
      exact h
    refine ⟨?_, ?_, ?_⟩
    · simp only [isBlankChar, Bool.or_eq_false_iff, Bool.and_eq_false_iff, decide_eq_false_iff_not,
        beq_eq_false_iff_ne]
      omega
    · rintro rfl
      exact absurd h (by decide)
    · rintro rfl
      exact absurd h (by decide)
  all_goals decide

theorem firm_number (n : Number) : Firm n.chars := by
  have hchars : ∀ c ∈ n.chars, isBlankChar c = false ∧ c ≠ '\r' ∧ c ≠ '\n' :=
    fun c hc => isBlankChar_of_isNumeric (Reader.isNumeric_chars n c hc)
  have hinline : Inline n.chars := inline_of_forall fun c hc => (hchars c hc).2
  have hlast := List.dropLast_concat_getLast (Reader.chars_ne_nil n)
  rw [← hlast] at hinline ⊢
  exact hinline.firm (hchars _ (List.getLast_mem (Reader.chars_ne_nil n))).1

theorem firm_word (cs : List Char) {c : Char} (h : ∀ x ∈ cs ++ [c], x ≠ '\r' ∧ x ≠ '\n')
    (hc : isBlankChar c = false) : Firm (cs ++ [c]) :=
  (inline_of_forall h).firm hc

theorem firm_bracket {open_ close : Char} {level : Nat} {inner : List Char} (hinner : Firm inner)
    (hopen : Firm [open_]) (hclose : Firm [close]) :
    Firm (open_ :: '\n' :: inner ++ '\n' :: indent level ++ [close]) := by
  have h := hopen.append_feed (hinner.append_feed ((inline_indent level).append_firm hclose))
  simpa using h

/-- What stands before the value of a member. -/
theorem inline_key (level : Nat) (k : String) :
    Inline (indent level ++ (stringChars k ++ [':', ' '])) :=
  (inline_indent level).append ((inline_stringChars k).append (inline_of_forall (by simp)))

mutual

theorem firm_prettyChars : ∀ (v : Json) (level : Nat), Firm (prettyChars level v)
  | .null, _ => by
    rw [prettyChars]
    exact firm_word ['n', 'u', 'l'] (by simp) (by decide)
  | .bool true, _ => by
    rw [prettyChars]
    exact firm_word ['t', 'r', 'u'] (by simp) (by decide)
  | .bool false, _ => by
    rw [prettyChars]
    exact firm_word ['f', 'a', 'l', 's'] (by simp) (by decide)
  | .number n, _ => by
    rw [prettyChars]
    exact firm_number n
  | .string s, _ => by
    rw [prettyChars]
    exact firm_stringChars s
  | .array [], _ => by
    rw [prettyChars]
    exact firm_word ['['] (by simp) (by decide)
  | .array (v :: vs), level => by
    rw [prettyChars]
    exact firm_bracket (firm_prettyItems (v :: vs) (List.cons_ne_nil v vs) (level + 1))
      (firm_word [] (by simp) (by decide)) (firm_word [] (by simp) (by decide))
  | .object [], _ => by
    rw [prettyChars]
    exact firm_word ['\x7b'] (by simp) (by decide)
  | .object (m :: ms), level => by
    rw [prettyChars]
    exact firm_bracket (firm_prettyMembers (m :: ms) (List.cons_ne_nil m ms) (level + 1))
      (firm_word [] (by simp) (by decide)) (firm_word [] (by simp) (by decide))

theorem firm_prettyItems : ∀ vs : List Json, vs ≠ [] → ∀ level, Firm (prettyItems level vs)
  | [], h, _ => absurd rfl h
  | [v], _, level => by
    rw [prettyItems]
    exact (inline_indent level).append_firm (firm_prettyChars v level)
  | v :: w :: ws, _, level => by
    have hitem := (inline_indent level).append_firm (firm_prettyChars v level)
    have hcomma := hitem.append_char (c := ',') (inline_of_forall (by simp)) (by decide)
    have h := hcomma.append_feed (firm_prettyItems (w :: ws) (List.cons_ne_nil w ws) level)
    simpa [prettyItems] using h

theorem firm_prettyMembers : ∀ ms : List (String × Json), ms ≠ [] → ∀ level,
    Firm (prettyMembers level ms)
  | [], h, _ => absurd rfl h
  | [(k, v)], _, level => by
    have h := (inline_key level k).append_firm (firm_prettyChars v level)
    simpa [prettyMembers] using h
  | (k, v) :: m :: ms, _, level => by
    have hmember := (inline_key level k).append_firm (firm_prettyChars v level)
    have hcomma := hmember.append_char (c := ',') (inline_of_forall (by simp)) (by decide)
    have h := hcomma.append_feed (firm_prettyMembers (m :: ms) (List.cons_ne_nil m ms) level)
    simpa [prettyMembers] using h

end

/-- Tidying a pretty text adds a line feed at its end and does nothing else. -/
theorem tidy_pretty (v : Json) : tidy v.pretty none = v.pretty ++ "\n" := by
  refine tidy_of_firm ?_
  rw [pretty, String.toList_ofList]
  exact firm_prettyChars v 0

end Workyard.Json
