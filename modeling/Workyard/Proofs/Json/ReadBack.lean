import Workyard.Proofs.Json.Numbers
import Workyard.Proofs.Json.Numerals
import Workyard.Proofs.Json.Spelling
import Workyard.Proofs.Json.Strings

/-!
# Reading back what is written

The pretty text of a document spells the document, with each number read back from its own text.
-/

namespace Workyard.Json

set_option autoImplicit false

open Reader

/-! ### Values in one go -/

theorem Number.reread_eq {n m : Number} (h : value 1 0 n.chars = .ok (.number m, [])) :
    n.reread = m := by
  have hspells : Spells False maxDepth (.value (.number m)) (compact (.number n)).toList [] := by
    rw [compact, String.toList_ofList, compactChars]
    exact .scalar h
  have hparse : parse (compact (.number n)) = .ok (.number m) :=
    parse_eq_ok_iff.mpr ⟨[], hspells, rfl⟩
  unfold Number.reread
  rw [hparse]

theorem value_number (n : Number) {rest : List Char} (h : Stops rest) :
    value 1 0 (n.chars ++ rest) = .ok (.number n.reread, rest) := by
  obtain ⟨m, hread, -⟩ := value_chars n
  have halone := hread [] (by simp [Stops])
  rw [List.append_nil] at halone
  rw [Number.reread_eq halone]
  exact hread rest h

theorem Number.reread_integer (i : Int)
    (h : -9223372036854775808 ≤ i ∧ i < 18446744073709551616) :
    (Number.integer i h).reread = .integer i h := by
  obtain ⟨m, hread, hsame⟩ := value_chars (.integer i h)
  have halone := hread [] (by simp [Stops])
  rw [List.append_nil] at halone
  rw [Number.reread_eq halone]
  exact hsame i h rfl

theorem value_string (s : String) (rest : List Char) :
    value 1 0 (stringChars s ++ rest) = .ok (.string s, rest) := by
  have hspace : skipSpace (stringChars s ++ rest) = stringChars s ++ rest := by
    rw [stringChars, List.cons_append, List.cons_append]
    exact skipSpace_cons (by decide) _
  have hstring := string_flatMap_escapeChar s rest
  unfold value
  rw [hspace, stringChars]
  simp [hstring, Bind.bind, Except.bind]

/-! ### Layout -/

theorem skipSpace_indent (level : Nat) (cs : List Char) :
    skipSpace (indent level ++ cs) = skipSpace cs := by
  unfold indent
  induction 2 * level with
  | zero => rfl
  | succ n ih =>
    rw [List.replicate_succ, List.cons_append, skipSpace_cons_of_space (by decide), ih]

/-- What stands before an item or a member and its indentation. -/
def leadIn (first : Bool) : List Char :=
  if first then ['\n'] else [',', '\n']

theorem nextItem_leadIn (first : Bool) (level : Nat) {c : Char} {cs : List Char}
    (hspace : isSpace c = false) (hend : c ≠ ']') (hcomma : c ≠ ',') :
    nextItem first (leadIn first ++ indent level ++ c :: cs) = .ok (true, c :: cs) := by
  have hskip : skipSpace ('\n' :: (indent level ++ c :: cs)) = c :: cs := by
    rw [skipSpace_cons_of_space (by decide), skipSpace_indent, skipSpace_cons hspace]
  cases first with
  | true =>
    unfold nextItem leadIn
    simp [hskip, hend, hcomma]
  | false =>
    unfold nextItem leadIn
    simp only [Bool.false_eq_true, if_false, List.cons_append, List.nil_append]
    rw [skipSpace_cons (by decide)]
    simp [hskip, hend]

theorem nextItem_close (level : Nat) (rest : List Char) :
    nextItem false ('\n' :: indent level ++ ']' :: rest) = .ok (false, rest) := by
  have hskip : skipSpace ('\n' :: (indent level ++ ']' :: rest)) = ']' :: rest := by
    rw [skipSpace_cons_of_space (by decide), skipSpace_indent, skipSpace_cons (by decide)]
  unfold nextItem
  simp [hskip]

theorem nextMember_leadIn (first : Bool) (level : Nat) (cs : List Char) :
    nextMember first (leadIn first ++ indent level ++ '\x22' :: cs) = .ok (true, cs) := by
  have hskip : skipSpace ('\n' :: (indent level ++ '\x22' :: cs)) = '\x22' :: cs := by
    rw [skipSpace_cons_of_space (by decide), skipSpace_indent, skipSpace_cons (by decide)]
  cases first with
  | true =>
    unfold nextMember leadIn
    simp [hskip]
  | false =>
    unfold nextMember leadIn
    simp only [Bool.false_eq_true, if_false, List.cons_append, List.nil_append]
    rw [skipSpace_cons (by decide)]
    simp [hskip]

theorem nextMember_close (level : Nat) (rest : List Char) :
    nextMember false ('\n' :: indent level ++ '\x7d' :: rest) = .ok (false, rest) := by
  have hskip : skipSpace ('\n' :: (indent level ++ '\x7d' :: rest)) = '\x7d' :: rest := by
    rw [skipSpace_cons_of_space (by decide), skipSpace_indent, skipSpace_cons (by decide)]
  unfold nextMember
  simp [hskip]

/-- White space before a value changes nothing. -/
theorem Spells.space {unique : Prop} {depth : Nat} {v : Json} {c : Char} {cs rest : List Char}
    (h : Spells unique depth (.value v) cs rest) (hc : isSpace c = true) :
    Spells unique depth (.value v) (c :: cs) rest := by
  cases h with
  | scalar h =>
    refine .scalar ?_
    unfold value at h ⊢
    rw [skipSpace_cons_of_space hc]
    exact h
  | array hopen hitems => exact .array (by rw [skipSpace_cons_of_space hc, hopen]) hitems
  | object hopen hunique hmembers =>
    exact .object (by rw [skipSpace_cons_of_space hc, hopen]) hunique hmembers

theorem isSpace_of_isNumeric {c : Char} (h : IsNumeric c) :
    isSpace c = false ∧ c ≠ ']' ∧ c ≠ ',' := by
  rcases h with h | rfl | rfl | rfl | rfl
  · have hne : ∀ x : Char, x.isDigit = false → c ≠ x := by
      rintro x hx rfl
      rw [h] at hx
      exact absurd hx (by simp)
    refine ⟨?_, hne _ rfl, hne _ rfl⟩
    simp [isSpace, hne ' ' rfl, hne '\n' rfl, hne '\t' rfl, hne '\r' rfl]
  all_goals decide

theorem prettyChars_head (level : Nat) (v : Json) :
    ∃ c cs, prettyChars level v = c :: cs ∧ isSpace c = false ∧ c ≠ ']' ∧ c ≠ ',' := by
  cases v with
  | null => exact ⟨_, _, by rw [prettyChars], by decide, by decide, by decide⟩
  | bool b =>
    cases b
    · exact ⟨_, _, by rw [prettyChars], by decide, by decide, by decide⟩
    · exact ⟨_, _, by rw [prettyChars], by decide, by decide, by decide⟩
  | number n =>
    obtain ⟨c, cs, hcs⟩ := List.exists_cons_of_ne_nil (chars_ne_nil n)
    exact ⟨c, cs, by rw [prettyChars, hcs],
      isSpace_of_isNumeric (isNumeric_chars n c (by rw [hcs]; exact List.mem_cons_self))⟩
  | string s => exact ⟨_, _, by rw [prettyChars, stringChars]; rfl, by decide, by decide, by decide⟩
  | array vs =>
    cases vs
    · exact ⟨_, _, by rw [prettyChars], by decide, by decide, by decide⟩
    · exact ⟨_, _, by rw [prettyChars]; rfl, by decide, by decide, by decide⟩
  | object ms =>
    cases ms
    · exact ⟨_, _, by rw [prettyChars], by decide, by decide, by decide⟩
    · exact ⟨_, _, by rw [prettyChars]; rfl, by decide, by decide, by decide⟩

/-! ### Documents -/

theorem stops_newline (cs : List Char) : Stops ('\n' :: cs) := by
  intro c hc
  rw [List.head?_cons, Option.mem_some] at hc
  subst hc
  decide

theorem stops_comma (cs : List Char) : Stops (',' :: cs) := by
  intro c hc
  rw [List.head?_cons, Option.mem_some] at hc
  subst hc
  decide

section

variable {unique : Prop} {depth : Nat} (level outer : Nat) (rest : List Char)

theorem spells_prettyItems {vs : List Json}
    (h : ∀ v ∈ vs, ∀ level rest, Stops rest →
      Spells unique depth (.value v.reread) (prettyChars level v ++ rest) rest)
    (hne : vs ≠ []) (first : Bool) :
    Spells unique depth (.items first (vs.map reread))
      (leadIn first ++ prettyItems level vs ++ '\n' :: indent outer ++ ']' :: rest) rest := by
  have hclose : Spells unique depth (.items false []) ('\n' :: indent outer ++ ']' :: rest) rest :=
    .noItem (nextItem_close outer rest)
  induction vs generalizing first with
  | nil => exact absurd rfl hne
  | cons v vs ih =>
    obtain ⟨c, cs, hcs, hspace, hend, hcomma⟩ := prettyChars_head level v
    have hvalue := h v List.mem_cons_self level
    have hnext : ∀ after, nextItem first
        (leadIn first ++ indent level ++ (prettyChars level v ++ after)) =
          .ok (true, prettyChars level v ++ after) := by
      intro after
      rw [hcs, List.cons_append]
      exact nextItem_leadIn first level hspace hend hcomma
    cases vs with
    | nil =>
      have hitem := Spells.item (hnext _) (hvalue _ (stops_newline _)) hclose
      simpa [prettyItems] using hitem
    | cons w ws =>
      have htail := ih (fun x hx => h x (List.mem_cons_of_mem v hx)) (List.cons_ne_nil w ws) false
      have hitem := Spells.item (hnext _) (hvalue _ (stops_comma _)) htail
      simpa [prettyItems, leadIn] using hitem

theorem spells_prettyMembers {ms : Members}
    (h : ∀ m ∈ ms, ∀ level rest, Stops rest →
      Spells unique depth (.value m.2.reread) (prettyChars level m.2 ++ rest) rest)
    (hne : ms ≠ []) (first : Bool) :
    Spells unique depth (.members first (ms.mapNumbers Number.reread))
      (leadIn first ++ prettyMembers level ms ++ '\n' :: indent outer ++ '\x7d' :: rest) rest := by
  have hclose : Spells unique depth (.members false []) ('\n' :: indent outer ++ '\x7d' :: rest) rest :=
    .noMember (nextMember_close outer rest)
  have hcolon : ∀ cs, colon (':' :: cs) = .ok cs := by
    intro cs
    unfold colon
    rw [skipSpace_cons (by decide)]
    simp
  induction ms generalizing first with
  | nil => exact absurd rfl hne
  | cons m ms ih =>
    obtain ⟨k, v⟩ := m
    have hvalue : ∀ after, Stops after → Spells unique depth (.value v.reread)
        (' ' :: (prettyChars level v ++ after)) after :=
      fun after hafter => (h (k, v) List.mem_cons_self level after hafter).space (by decide)
    have hnext := fun after => nextMember_leadIn first level
      (k.toList.flatMap escapeChar ++ '\x22' :: ':' :: ' ' :: (prettyChars level v ++ after))
    have hkey := fun after => string_flatMap_escapeChar k
      (':' :: ' ' :: (prettyChars level v ++ after))
    cases ms with
    | nil =>
      have hmember := Spells.member (hnext _) (hkey _) (hcolon _) (hvalue _ (stops_newline _)) hclose
      simpa [prettyMembers, Members.mapNumbers, reread, stringChars] using hmember
    | cons m' ms =>
      have htail := ih (fun x hx => h x (List.mem_cons_of_mem _ hx)) (List.cons_ne_nil m' ms) false
      have hmember := Spells.member (hnext _) (hkey _) (hcolon _) (hvalue _ (stops_comma _)) htail
      simpa [prettyMembers, Members.mapNumbers, reread, stringChars, leadIn] using hmember

end

/-- The pretty text of a document that can be spelt at all spells it, as far as numbers read back. -/
theorem spells_prettyChars {unique : Prop} {depth : Nat} {v : Json} (h : Fits depth v) (level : Nat)
    (rest : List Char) (hrest : Stops rest) :
    Spells unique depth (.value v.reread) (prettyChars level v ++ rest) rest := by
  induction h generalizing level rest with
  | null =>
    rw [prettyChars, reread, mapNumbers_null]
    exact .scalar (by simp [value, skipSpace, isSpace, wordTail, Bind.bind, Except.bind])
  | bool b =>
    rw [reread, mapNumbers_bool]
    cases b
    all_goals
      rw [prettyChars]
      exact .scalar (by simp [value, skipSpace, isSpace, wordTail, Bind.bind, Except.bind])
  | number n =>
    rw [prettyChars, reread, mapNumbers_number]
    exact .scalar (value_number n hrest)
  | string s =>
    rw [prettyChars, reread, mapNumbers_string]
    exact .scalar (value_string s rest)
  | @array depth vs hvs ih =>
    rw [reread, mapNumbers_array]
    cases vs with
    | nil =>
      rw [prettyChars]
      have hskip : skipSpace (']' :: rest) = ']' :: rest := skipSpace_cons (by decide) rest
      refine .array (skipSpace_cons (by decide) (']' :: rest)) (.noItem ?_)
      simp [nextItem, hskip]
    | cons v vs =>
      have hitems := spells_prettyItems (level + 1) level rest
        (fun w hw level rest hrest => ih w hw level rest hrest) (List.cons_ne_nil v vs) true
      have harray := Spells.array (skipSpace_cons (by decide) _) hitems
      have hreread : reread = mapNumbers Number.reread := rfl
      simpa [prettyChars, leadIn, hreread] using harray
  | @object depth ms hkeys hms ih =>
    rw [reread, mapNumbers_object]
    cases ms with
    | nil =>
      rw [prettyChars]
      have hskip : skipSpace ('\x7d' :: rest) = '\x7d' :: rest := skipSpace_cons (by decide) rest
      have hnone : Spells unique depth (.members true []) ('\x7d' :: rest) rest :=
        .noMember (by simp [nextMember, hskip])
      exact .object (skipSpace_cons (by decide) _) (fun _ => hkeys) hnone
    | cons m ms =>
      have hmembers := spells_prettyMembers (level + 1) level rest
        (fun w hw level rest hrest => ih w hw level rest hrest) (List.cons_ne_nil m ms) true
      have hkeys' : (Members.keys (Members.mapNumbers Number.reread (m :: ms))).Nodup := by
        rw [Members.keys_mapNumbers]
        exact hkeys
      have hobject := Spells.object (skipSpace_cons (by decide) _) (fun _ => hkeys') hmembers
      rw [Members.ofList_of_nodup hkeys'] at hobject
      simpa [prettyChars, leadIn, Members.mapNumbers] using hobject

/-- The text that is written spells its document, with or without a line feed after it. -/
theorem spells_pretty {unique : Prop} {v : Json} (h : Fits maxDepth v) :
    Spells unique maxDepth (.value v.reread) v.pretty.toList [] ∧
      Spells unique maxDepth (.value v.reread) (v.pretty ++ "\n").toList ['\n'] := by
  have hplain : Spells unique maxDepth (.value v.reread) (prettyChars 0 v ++ []) [] :=
    spells_prettyChars h 0 [] (by simp [Stops])
  have hline : Spells unique maxDepth (.value v.reread) (prettyChars 0 v ++ ['\n']) ['\n'] :=
    spells_prettyChars h 0 ['\n'] (stops_newline [])
  constructor
  · simpa [pretty] using hplain
  · simpa [pretty] using hline

/-- What is written reads back. -/
theorem parse_pretty {v : Json} (h : Fits maxDepth v) :
    parse v.pretty = .ok v.reread ∧ parse (v.pretty ++ "\n") = .ok v.reread := by
  obtain ⟨hplain, hline⟩ := @spells_pretty False v h
  exact ⟨parse_eq_ok_iff.mpr ⟨[], hplain, rfl⟩, parse_eq_ok_iff.mpr ⟨['\n'], hline, rfl⟩⟩

end Workyard.Json
