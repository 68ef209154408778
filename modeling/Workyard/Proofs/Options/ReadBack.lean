import Workyard.Proofs.Json.Spelling
import Workyard.Proofs.Options.Denotation
import Workyard.Proofs.Options.Scalars
import Workyard.Proofs.Options.Silence

/-!
# Reading back written options

An object that is written as JSON is an object literal of a script, and reading the literal gives
the object: every value and every key, in the same order. It does not matter where blanks and line
feeds stand between the tokens.
-/

namespace Workyard.Options

set_option autoImplicit false

open Json Script Script.Node Script.Draft

/-! ### Documents laid out -/

/-- A text is the phrase, with nothing but blanks and line feeds between its tokens. -/
inductive Layout : Phrase → List Char → Prop
  | null : Layout (.value .null) ['n', 'u', 'l', 'l']
  | true : Layout (.value (.bool true)) ['t', 'r', 'u', 'e']
  | false : Layout (.value (.bool false)) ['f', 'a', 'l', 's', 'e']
  | number {i : Int} {h} : Layout (.value (.number (.integer i h))) (Number.chars (.integer i h))
  | string (s : String) : Layout (.value (.string s)) (stringChars s)
  | array {vs cs} (hitems : Layout (.items true vs) cs) : Layout (.value (.array vs)) ('[' :: cs)
  | object {ms cs} (hmembers : Layout (.members true ms) cs) :
      Layout (.value (.object ms)) ('\x7b' :: cs)
  | noItem {first bs} (hbs : Blank bs) : Layout (.items first []) (bs ++ [']'])
  | item {bs v vs cs after} (hbs : Blank bs) (hvalue : Layout (.value v) cs)
      (hitems : Layout (.items false vs) after) : Layout (.items true (v :: vs)) (bs ++ (cs ++ after))
  | nextItem {v vs cs} (hitems : Layout (.items true (v :: vs)) cs) :
      Layout (.items false (v :: vs)) (',' :: cs)
  | noMember {first bs} (hbs : Blank bs) : Layout (.members first []) (bs ++ ['\x7d'])
  | member {bs bs' k v ms cs after} (hbs : Blank bs) (hbs' : Blank bs')
      (hvalue : Layout (.value v) cs) (hmembers : Layout (.members false ms) after) :
      Layout (.members true ((k, v) :: ms)) (bs ++ (stringChars k ++ ':' :: (bs' ++ (cs ++ after))))
  | nextMember {e ms cs} (hmembers : Layout (.members true (e :: ms)) cs) :
      Layout (.members false (e :: ms)) (',' :: cs)

/-- Documents in which all numbers are integers. -/
inductive Integral : Json → Prop
  | null : Integral .null
  | bool (b : Bool) : Integral (.bool b)
  | number {i : Int} {h} : Integral (.number (.integer i h))
  | string (s : String) : Integral (.string s)
  | array {vs : List Json} (h : ∀ v ∈ vs, Integral v) : Integral (.array vs)
  | object {ms : Members} (h : ∀ m ∈ ms, Integral m.2) : Integral (.object ms)

/-- Documents in which no object gives a key twice and all numbers are integers above the least. -/
inductive Spellable : Json → Prop
  | null : Spellable .null
  | bool (b : Bool) : Spellable (.bool b)
  | number {i : Int} {h} (hleast : -9223372036854775808 < i) : Spellable (.number (.integer i h))
  | string (s : String) : Spellable (.string s)
  | array {vs : List Json} (h : ∀ v ∈ vs, Spellable v) : Spellable (.array vs)
  | object {ms : Members} (hkeys : (Members.keys ms).Nodup) (h : ∀ m ∈ ms, Spellable m.2) :
      Spellable (.object ms)

theorem Spellable.integral {v : Json} (h : Spellable v) : Integral v := by
  induction h with
  | null => exact .null
  | bool b => exact .bool b
  | number => exact .number
  | string s => exact .string s
  | array _ ih => exact .array ih
  | object _ _ ih => exact .object ih

/-- A text is a document that can be spelled. -/
structure Laid (v : Json) (cs : List Char) : Prop where
  layout : Layout (.value v) cs
  spellable : Spellable v

theorem layout_compactItems {vs : List Json} (h : ∀ v ∈ vs, Layout (.value v) v.compactChars) :
    Layout (.items true vs) (compactItems vs ++ [']']) := by
  induction vs with
  | nil => exact .noItem blank_nil
  | cons v vs ih =>
    rw [List.forall_mem_cons] at h
    cases vs with
    | nil => exact .item blank_nil h.1 (.noItem blank_nil)
    | cons w ws =>
      have hitem := Layout.item blank_nil h.1 (.nextItem (ih h.2))
      simpa [compactItems] using hitem

theorem layout_compactMembers {ms : Members} (h : ∀ m ∈ ms, Layout (.value m.2) m.2.compactChars) :
    Layout (.members true ms) (compactMembers ms ++ ['\x7d']) := by
  induction ms with
  | nil => exact .noMember blank_nil
  | cons m ms ih =>
    obtain ⟨k, v⟩ := m
    rw [List.forall_mem_cons] at h
    cases ms with
    | nil =>
      have hnone : Layout (.members Bool.false []) ([] ++ ['\x7d']) := .noMember blank_nil
      have hmember := Layout.member (k := k) blank_nil blank_nil h.1 hnone
      simpa [compactMembers] using hmember
    | cons m' ms =>
      have hmember := Layout.member (k := k) blank_nil blank_nil h.1 (.nextMember (ih h.2))
      simpa [compactMembers] using hmember

theorem layout_compactChars {v : Json} (h : Integral v) : Layout (.value v) v.compactChars := by
  induction h with
  | null => rw [compactChars]; exact .null
  | bool b =>
    cases b
    · rw [compactChars]; exact .false
    · rw [compactChars]; exact .true
  | number => rw [compactChars]; exact .number
  | string s => rw [compactChars]; exact .string s
  | array _ ih => rw [compactChars]; exact .array (layout_compactItems ih)
  | object _ ih => rw [compactChars]; exact .object (layout_compactMembers ih)

theorem blank_indent (level : Nat) : Blank (indent level) := by
  intro b hb
  exact .inl (List.eq_of_mem_replicate hb)

theorem blank_line (level : Nat) : Blank ('\n' :: indent level) :=
  List.forall_mem_cons.mpr ⟨.inr rfl, blank_indent level⟩

theorem layout_prettyItems {level : Nat} {vs : List Json} {close : List Char} (hne : vs ≠ [])
    (hclose : Blank close) (h : ∀ v ∈ vs, Layout (.value v) (v.prettyChars level)) :
    Layout (.items true vs) ('\n' :: prettyItems level vs ++ (close ++ [']'])) := by
  induction vs with
  | nil => exact absurd rfl hne
  | cons v vs ih =>
    rw [List.forall_mem_cons] at h
    cases vs with
    | nil =>
      have hitem := Layout.item (blank_line level) h.1 (.noItem hclose)
      simpa [prettyItems] using hitem
    | cons w ws =>
      have hitem := Layout.item (blank_line level) h.1 (.nextItem (ih (List.cons_ne_nil w ws) h.2))
      simpa [prettyItems] using hitem

theorem layout_prettyMembers {level : Nat} {ms : Members} {close : List Char} (hne : ms ≠ [])
    (hclose : Blank close) (h : ∀ m ∈ ms, Layout (.value m.2) (m.2.prettyChars level)) :
    Layout (.members true ms) ('\n' :: prettyMembers level ms ++ (close ++ ['\x7d'])) := by
  have hspace : Blank [' '] := List.forall_mem_singleton.mpr (.inl rfl)
  induction ms with
  | nil => exact absurd rfl hne
  | cons m ms ih =>
    obtain ⟨k, v⟩ := m
    rw [List.forall_mem_cons] at h
    cases ms with
    | nil =>
      have hnone : Layout (.members Bool.false []) (close ++ ['\x7d']) := .noMember hclose
      have hmember := Layout.member (k := k) (blank_line level) hspace h.1 hnone
      simpa [prettyMembers] using hmember
    | cons m' ms =>
      have hmember := Layout.member (k := k) (blank_line level) hspace h.1
        (.nextMember (ih (List.cons_ne_nil m' ms) h.2))
      simpa [prettyMembers] using hmember

theorem layout_prettyChars {v : Json} (h : Integral v) (level : Nat) :
    Layout (.value v) (v.prettyChars level) := by
  induction h generalizing level with
  | null => rw [prettyChars]; exact .null
  | bool b =>
    cases b
    · rw [prettyChars]; exact .false
    · rw [prettyChars]; exact .true
  | number => rw [prettyChars]; exact .number
  | string s => rw [prettyChars]; exact .string s
  | @array vs _ ih =>
    cases vs with
    | nil => rw [prettyChars]; exact .array (.noItem blank_nil)
    | cons v vs =>
      have hitems := layout_prettyItems (List.cons_ne_nil v vs) (blank_line level)
        fun w hw => ih w hw (level + 1)
      simpa [prettyChars] using Layout.array hitems
  | @object ms _ ih =>
    cases ms with
    | nil => rw [prettyChars]; exact .object (.noMember blank_nil)
    | cons m ms =>
      have hmembers := layout_prettyMembers (List.cons_ne_nil m ms) (blank_line level)
        fun w hw => ih w hw (level + 1)
      simpa [prettyChars] using Layout.object hmembers

theorem laid_compactChars {v : Json} (h : Spellable v) : Laid v v.compactChars :=
  ⟨layout_compactChars h.integral, h⟩

theorem laid_prettyChars {v : Json} (h : Spellable v) (level : Nat) : Laid v (v.prettyChars level) :=
  ⟨layout_prettyChars h.integral level, h⟩

/-! ### What a layout begins with -/

theorem begins_of_isDigit {c : Char} (h : c.isDigit = true) (cs : List Char) : Begins (c :: cs) := by
  refine ⟨solid_of_isDigit h cs, c, cs, rfl, ?_⟩
  have hc := mem_digits h
  simp only [List.mem_cons, List.not_mem_nil, or_false] at hc ⊢
  rcases hc with rfl | rfl | rfl | rfl | rfl | rfl | rfl | rfl | rfl | rfl <;> decide

theorem begins_digitsOf (n : Nat) (rest : List Char) : Begins (Decimal.digitsOf n ++ rest) := by
  obtain ⟨c, cs, hcs⟩ := List.exists_cons_of_ne_nil (Reader.digitsOf_ne_nil n)
  rw [hcs]
  exact begins_of_isDigit (Reader.isDigit_of_mem_digitsOf (hcs ▸ List.mem_cons_self)) _

theorem head?_digitsOf_append (n : Nat) (rest : List Char) :
    (Decimal.digitsOf n ++ rest).head? ≠ some '-' := by
  obtain ⟨c, cs, hcs⟩ := List.exists_cons_of_ne_nil (Reader.digitsOf_ne_nil n)
  have hc : c.isDigit = true := Reader.isDigit_of_mem_digitsOf (hcs ▸ List.mem_cons_self)
  rw [hcs]
  rintro ⟨⟩
  cases hc

theorem begins_of_layout {v : Json} {cs : List Char} (h : Layout (.value v) cs) (rest : List Char) :
    Begins (cs ++ rest) := by
  cases h with
  | null => exact ⟨⟨rfl, rfl, rfl⟩, _, _, rfl, by decide⟩
  | true => exact ⟨⟨rfl, rfl, rfl⟩, _, _, rfl, by decide⟩
  | false => exact ⟨⟨rfl, rfl, rfl⟩, _, _, rfl, by decide⟩
  | string s => exact ⟨⟨rfl, rfl, rfl⟩, _, _, rfl, by decide⟩
  | array => exact ⟨⟨rfl, rfl, rfl⟩, _, _, rfl, by decide⟩
  | object => exact ⟨⟨rfl, rfl, rfl⟩, _, _, rfl, by decide⟩
  | @number i =>
    rw [Number.chars]
    split
    · refine ⟨⟨rfl, rfl, ?_⟩, _, _, rfl, by decide⟩
      have hhead := head?_digitsOf_append i.natAbs rest
      rw [List.cons_append, Lexeme.htmlComment.eq_def]
      split
      · rename_i heq
        cases heq
      · rename_i heq
        rw [(List.cons.inj heq).2] at hhead
        exact absurd rfl hhead
      · rfl
    · exact begins_digitsOf _ _

theorem length_pos_of_layout {v : Json} {cs : List Char} (h : Layout (.value v) cs) :
    0 < cs.length := by
  obtain ⟨c, t, hcs, -⟩ := (begins_of_layout h []).head
  rw [List.append_nil] at hcs
  simp [hcs]

theorem settled_of_items {vs : List Json} {cs : List Char} (h : Layout (.items false vs) cs)
    (rest : List Char) : Settled (cs ++ rest) := by
  cases h with
  | noItem hbs =>
    rw [List.append_assoc]
    exact .intro hbs (.bracket rest)
  | nextItem => exact (Ends.comma _).settled

theorem settled_of_members {ms : Members} {cs : List Char} (h : Layout (.members false ms) cs)
    (rest : List Char) : Settled (cs ++ rest) := by
  cases h with
  | noMember hbs =>
    rw [List.append_assoc]
    exact .intro hbs (.brace rest)
  | nextMember => exact (Ends.comma _).settled

/-! ### What is read -/

section Found

variable {source : List Char}

/-- Reading finds the phrase at the front of a text, given eight levels for each character. Nothing is
called in what it finds, and that denotes the phrase if all of it can be spelled. -/
def Found (source : List Char) : Phrase → List Char → Prop
  | .value v, cs => ∀ (fuel : Nat) (d : Draft source) (rest : List Char), 8 * cs.length ≤ fuel →
      d.rest = cs ++ rest → Settled rest →
      ∃ n, ((Spellable v → Denotes Kind.isLayout n v) ∧ ∀ callee, Quiet callee n) ∧
        Leads d (expression fuel d) [n] rest
  | .items first vs, cs => ∀ (fuel : Nat) (d : Draft source) (rest : List Char),
      8 * cs.length ≤ fuel → d.rest = cs ++ rest →
      ∃ ns, (((∀ v ∈ vs, Spellable v) → Items Kind.isLayout first ns vs) ∧
          ∀ callee, ∀ n ∈ ns, Quiet callee n) ∧
        Leads d (if first then entries fuel .items d else entriesAfter fuel .items d) ns rest
  | .members first ms, cs => ∀ (fuel : Nat) (d : Draft source) (rest : List Char),
      8 * cs.length ≤ fuel → d.rest = cs ++ rest →
      ∃ ns, (((∀ m ∈ ms, Spellable m.2) → Pairs Kind.isLayout ns ms) ∧
          ∀ callee, ∀ n ∈ ns, Quiet callee n) ∧
        Leads d (if first then entries fuel .members d else entriesAfter fuel .members d) ns rest

theorem found_word {v : Json} {c : Char} {w : List Char} {kind : Kind}
    (hc : c ∈ ['t', 'f', 'n']) (hw : (c :: w).all Lexeme.isWordPart = true)
    (hfault : kind.isFault = false)
    (hdenotes : ∀ (m : Text.Mark source) (s : String), Denotes Kind.isLayout (.leaf kind m s) v)
    (hworded : ∀ (fuel : Nat) (d : Draft source), d.word = String.ofList (c :: w) →
      worded (fuel + 1) d = d.wordToken kind)
    (hbare : String.ofList (c :: w) ∉ ["typeof", "void", "delete", "await", "yield"]) :
    Found source (.value v) (c :: w) := by
  intro fuel d rest hfuel hd hrest
  have hw := List.all_eq_true.mp hw
  obtain ⟨k, rfl⟩ : ∃ k, fuel = k + 5 := ⟨fuel - 5, by simp at hfuel; omega⟩
  have hdigit : c.isDigit = false := by
    simp only [List.mem_cons, List.not_mem_nil, or_false] at hc
    rcases hc with rfl | rfl | rfl <;> rfl
  have hsign : c ∉ ['!', '~', '+', '-'] := by
    simp only [List.mem_cons, List.not_mem_nil, or_false] at hc
    rcases hc with rfl | rfl | rfl <;> decide
  have hstart : Lexeme.isWordStart c = true := by
    rw [Lexeme.isWordStart, hdigit, hw c List.mem_cons_self]
    rfl
  obtain ⟨hword, htoken⟩ := leads_wordToken (d := fresh d.cursor) kind hdigit hw
    hrest.breaks.stops hd
  have hlength : Lexeme.word (fresh d.cursor).rest ≠ 0 := by
    rw [show (fresh d.cursor).rest = c :: w ++ rest from hd, word_append hdigit hw hrest.breaks.stops]
    simp
  have hprimary : primary (k + 2) (fresh d.cursor) = (fresh d.cursor).wordToken kind := by
    rw [primary_of_wordStart (d := fresh d.cursor) hd hstart hlength, hworded k _ hword]
  refine ⟨_, ⟨fun _ => hdenotes _ _, fun _ => .leaf hfault⟩,
    leads_of_primary ⟨⟨c, _, hd, hsign⟩, ?_⟩ hrest (hprimary ▸ htoken)⟩
  exact fun hmem => hbare (hword ▸ hmem)

theorem found_number {i : Int} {h} :
    Found source (.value (.number (.integer i h))) (Number.chars (.integer i h)) := by
  intro fuel d rest hfuel hd hrest
  have hdigits : ∀ c ∈ Decimal.digitsOf i.natAbs, c.isDigit = true :=
    fun c hc => Reader.isDigit_of_mem_digitsOf hc
  have hnumeral (k : Nat) (e : Draft source) (he : e.rest = Decimal.digitsOf i.natAbs ++ rest) :=
    leads_numeral k hdigits (Reader.digitsOf_ne_nil i.natAbs) (digitsOf_zero_or i.natAbs)
      hrest he
  rw [Number.chars] at hd hfuel
  split at hd
  · rename_i hnegative
    rw [if_pos hnegative, List.length_cons] at hfuel
    obtain ⟨k, rfl⟩ : ∃ k, fuel = k + 5 := ⟨fuel - 5, by omega⟩
    obtain ⟨b, m, n, ⟨m', rfl⟩, hleads⟩ :=
      leads_signed (P := fun n => ∃ m, n = .leaf .number m (String.ofList (Decimal.digitsOf i.natAbs)))
        (by decide) hd (head?_digitsOf_append i.natAbs rest) (begins_digitsOf i.natAbs rest).solid
        hrest fun e he => ⟨_, ⟨_, rfl⟩, hnumeral k e he⟩
    obtain ⟨j, rfl⟩ : ∃ j : Nat, i = -j := ⟨i.natAbs, by omega⟩
    refine ⟨_, ⟨fun hspellable => ?_, fun callee => ?_⟩, hleads⟩
    · cases hspellable with
      | number hleast =>
        have hnumber : number? true (String.ofList (Decimal.digitsOf (-(j : Int)).natAbs)) =
            some (.integer (-j) h) := by
          rw [Int.natAbs_neg, Int.natAbs_natCast]
          exact number?_negative (by omega) h
        exact @Denotes.signed _ _ d.cursor.mark b m m' "-" _ _ [] (.inl rfl) (List.forall_mem_nil _) hnumber
    · exact .pair rfl rfl (.leaf rfl) (.leaf rfl)
  · rename_i hnatural
    rw [if_neg hnatural] at hfuel
    have hlength := List.length_pos_iff.mpr (Reader.digitsOf_ne_nil i.natAbs)
    obtain ⟨k, rfl⟩ : ∃ k, fuel = k + 4 := ⟨fuel - 4, by omega⟩
    obtain ⟨j, rfl⟩ : ∃ j : Nat, i = j := ⟨i.natAbs, by omega⟩
    have hnumber : number? false (String.ofList (Decimal.digitsOf (j : Int).natAbs)) =
        some (.integer j h) := by
      rw [Int.natAbs_natCast]
      exact number?_natural h
    exact ⟨_, ⟨fun _ => .number hnumber, fun _ => .leaf rfl⟩,
      leads_expression hrest (hnumeral k (fresh d.cursor) hd)⟩

theorem found_string (s : String) : Found source (.value (.string s)) (stringChars s) := by
  intro fuel d rest hfuel hd hrest
  have hlength : 2 ≤ (stringChars s).length := by simp [stringChars]
  obtain ⟨k, rfl⟩ : ∃ k, fuel = k + 4 := ⟨fuel - 4, by omega⟩
  obtain ⟨a, b, ns, hns, hcook, hleads⟩ := leads_quoted (d := fresh d.cursor) hd
  have hbare : Bare d := bare_of_head (show _ = '\x22' :: (_ ++ rest) from hd) (by decide) rfl
  have hprimary : primary (k + 1) (fresh d.cursor) = (fresh d.cursor).quoted '\x22' := by
    have hd : (fresh d.cursor).rest = '\x22' :: (s.toList.flatMap escapeChar ++ ['\x22'] ++ rest) := hd
    simp [primary, hd]
  have hdenotes : Denotes Kind.isLayout (.branch .string a b ns) (.string (cook (piecesOf ns))) :=
    .text rfl hns
  rw [hcook] at hdenotes
  exact ⟨_, ⟨fun _ => hdenotes, fun _ => .plain rfl rfl (quiet_of_leaves hns)⟩,
    leads_of_primary hbare hrest (hprimary ▸ hleads)⟩

theorem found_array {vs : List Json} {cs : List Char} (h : Found source (.items true vs) cs) :
    Found source (.value (.array vs)) ('[' :: cs) := by
  intro fuel d rest hfuel hd hrest
  rw [List.length_cons] at hfuel
  obtain ⟨k, rfl⟩ : ∃ k, fuel = k + 4 := ⟨fuel - 4, by omega⟩
  have hd : d.rest = '[' :: (cs ++ rest) := hd
  have hprimary : primary (k + 1) (fresh d.cursor) =
      (fresh d.cursor).enclose .array fun b => entries k .items (b.sign 1) := by
    have hd : (fresh d.cursor).rest = '[' :: (cs ++ rest) := hd
    simp [primary, hd]
  have hbracket : String.ofList ['['] ≠ "," := by decide
  obtain ⟨a, b, m, ns, ⟨hitems, hquiet⟩, hleads⟩ := leads_listed .items hd
    (bare_of_head hd (by decide) rfl) hrest hprimary fun e he => h k e rest (by omega) he
  refine ⟨_, ⟨fun hspellable => ?_, fun callee => ?_⟩, hleads⟩
  · cases hspellable with
    | array hvs => exact .array (.bracket hbracket (hitems hvs))
  · exact .plain rfl rfl (List.forall_mem_cons.mpr ⟨.leaf rfl, hquiet callee⟩)

theorem found_object {ms : Members} {cs : List Char} (h : Found source (.members true ms) cs) :
    Found source (.value (.object ms)) ('\x7b' :: cs) := by
  intro fuel d rest hfuel hd hrest
  rw [List.length_cons] at hfuel
  obtain ⟨k, rfl⟩ : ∃ k, fuel = k + 4 := ⟨fuel - 4, by omega⟩
  have hd : d.rest = '\x7b' :: (cs ++ rest) := hd
  have hprimary : primary (k + 1) (fresh d.cursor) =
      (fresh d.cursor).enclose .object fun b => entries k .members (b.sign 1) := by
    have hd : (fresh d.cursor).rest = '\x7b' :: (cs ++ rest) := hd
    simp [primary, hd]
  obtain ⟨a, b, m, ns, ⟨hpairs, hquiet⟩, hleads⟩ := leads_listed .members hd
    (bare_of_head hd (by decide) rfl) hrest hprimary fun e he => h k e rest (by omega) he
  refine ⟨_, ⟨fun hspellable => ?_, fun callee => ?_⟩, hleads⟩
  · cases hspellable with
    | object hkeys hms =>
      have hmerged : Members.Merged ms ms :=
        Members.merged_iff.mpr (Members.ofList_of_nodup hkeys).symm
      exact .object (.punctuation (hpairs hms)) hmerged
  · exact .plain rfl rfl (List.forall_mem_cons.mpr ⟨.leaf rfl, hquiet callee⟩)

theorem found_noItem {first : Bool} {bs : List Char} (hbs : Blank bs) :
    Found source (.items first []) (bs ++ [']']) := by
  intro fuel d rest hfuel hd
  rw [List.length_append, List.length_singleton] at hfuel
  obtain ⟨k, rfl⟩ : ∃ k, fuel = k + 1 := ⟨fuel - 1, by omega⟩
  rw [List.append_assoc] at hd
  have hbracket : String.ofList [']'] ≠ "," := by decide
  obtain ⟨m, hleads⟩ := leads_listEnd first k .items hd hbs
  exact ⟨_, ⟨fun _ => .bracket hbracket .nil,
    fun _ => List.forall_mem_singleton.mpr (.leaf rfl)⟩, hleads⟩

theorem found_item {bs cs after : List Char} {v : Json} {vs : List Json} (hbs : Blank bs)
    (hlaid : Layout (.value v) cs) (hlaid' : Layout (.items false vs) after)
    (hvalue : Found source (.value v) cs) (hitems : Found source (.items false vs) after) :
    Found source (.items true (v :: vs)) (bs ++ (cs ++ after)) := by
  intro fuel d rest hfuel hd
  have hcs := length_pos_of_layout hlaid
  have hafter : 0 < after.length := by
    cases hlaid' <;> simp
  rw [List.length_append, List.length_append] at hfuel
  obtain ⟨k, rfl⟩ : ∃ k, fuel = k + 2 := ⟨fuel - 2, by omega⟩
  rw [List.append_assoc, List.append_assoc] at hd
  have hbegins := begins_of_layout hlaid (after ++ rest)
  have hspace := leads_space hd hbs hbegins.solid
  have hentry : entry (k + 1) .items d.space = expression k d.space := by
    rw [entry, beginsWith_dots (hspace.rest_eq ▸ hbegins), if_neg Bool.false_ne_true]
    rintro ⟨⟩
  obtain ⟨n, ⟨hdenotes, hn⟩, hleads⟩ :=
    hvalue k d.space (after ++ rest) (by omega) hspace.rest_eq (settled_of_items hlaid' rest)
  obtain ⟨ns, ⟨hns, hquiet⟩, hleads'⟩ := hitems (k + 1) _ rest (by omega) hleads.rest_eq
  have hdenotes (hspellable : ∀ w ∈ v :: vs, Spellable w) :
      Items Kind.isLayout true (n :: ns) (v :: vs) := by
    rw [List.forall_mem_cons] at hspellable
    exact .item (hdenotes hspellable.1) (hns hspellable.2)
  refine ⟨_, ⟨hdenotes, fun callee => List.forall_mem_cons.mpr ⟨hn callee, hquiet callee⟩⟩, ?_⟩
  show Leads d (entries (k + 2) .items d) _ rest
  rw [entries_of_begins .items hd hbs hbegins, hentry]
  exact hspace.trans (hleads.trans hleads')

theorem found_nextItem {cs : List Char} {v : Json} {vs : List Json}
    (h : Found source (.items true (v :: vs)) cs) :
    Found source (.items false (v :: vs)) (',' :: cs) := by
  intro fuel d rest hfuel hd
  rw [List.length_cons] at hfuel
  obtain ⟨k, rfl⟩ : ∃ k, fuel = k + 1 := ⟨fuel - 1, by omega⟩
  obtain ⟨m, ns, ⟨hns, hquiet⟩, hleads⟩ := leads_entriesAfter_comma .items hd
    fun e he => h k e rest (by omega) he
  exact ⟨_, ⟨fun hspellable => .comma (hns hspellable),
    fun callee => List.forall_mem_cons.mpr ⟨.leaf rfl, hquiet callee⟩⟩, hleads⟩

theorem found_noMember {first : Bool} {bs : List Char} (hbs : Blank bs) :
    Found source (.members first []) (bs ++ ['\x7d']) := by
  intro fuel d rest hfuel hd
  rw [List.length_append, List.length_singleton] at hfuel
  obtain ⟨k, rfl⟩ : ∃ k, fuel = k + 1 := ⟨fuel - 1, by omega⟩
  rw [List.append_assoc] at hd
  obtain ⟨m, hleads⟩ := leads_listEnd first k .members hd hbs
  exact ⟨_, ⟨fun _ => .punctuation .nil,
    fun _ => List.forall_mem_singleton.mpr (.leaf rfl)⟩, hleads⟩

/-- A member with a quoted key is a pair. -/
theorem found_pair {k : String} {v : Json} {bs cs : List Char} (hbs : Blank bs)
    (hlaid : Layout (.value v) cs) (hvalue : Found source (.value v) cs) {fuel : Nat}
    {d : Draft source} {rest : List Char} (hfuel : 8 * cs.length ≤ fuel)
    (hd : d.rest = stringChars k ++ ':' :: (bs ++ (cs ++ rest))) (hrest : Settled rest) :
    ∃ n, ((Spellable v → Pair Kind.isLayout n (k, v)) ∧ ∀ callee, Quiet callee n) ∧
      Leads d (member (fuel + 2) d) [n] rest := by
  obtain ⟨a, b, ns, hns, hcook, hkey⟩ := leads_quoted (d := fresh d.cursor) hd
  have hcolon := hkey.trans (leads_space_here hkey.rest_eq ⟨rfl, rfl, rfl⟩)
  have hsign := hcolon.trans (leads_sign hcolon.rest_eq)
  have hspace := hsign.trans (leads_space hsign.rest_eq hbs (begins_of_layout hlaid rest).solid)
  obtain ⟨n, ⟨hdenotes, hn⟩, hleads⟩ := hvalue fuel _ rest hfuel hspace.rest_eq hrest
  have hnames := Names.string (a := a) (b := b) hns
  rw [hcook] at hnames
  have hpair := (hspace.trans hleads).close (d := d) .pair
  rw [member_of_quote hd, propertyName_of_quote (d := fresh d.cursor) hd,
    memberTail_of_colon d.cursor hcolon.rest_eq]
  refine ⟨_, ⟨fun hspellable => @Pair.intro _ _ _ _ _ _ _ _ _ [] [] hnames (List.forall_mem_nil _)
    (List.forall_mem_nil _) (hdenotes hspellable), fun callee => ?_⟩, hpair⟩
  have hkey : Quiet callee (.branch .string a b ns) := .plain rfl rfl (quiet_of_leaves hns)
  exact .triple rfl rfl hkey (.leaf rfl) (hn callee)

theorem found_member {bs bs' cs after : List Char} {k : String} {v : Json} {ms : Members}
    (hbs : Blank bs) (hbs' : Blank bs') (hlaid : Layout (.value v) cs)
    (hlaid' : Layout (.members false ms) after) (hvalue : Found source (.value v) cs)
    (hmembers : Found source (.members false ms) after) :
    Found source (.members true ((k, v) :: ms))
      (bs ++ (stringChars k ++ ':' :: (bs' ++ (cs ++ after)))) := by
  intro fuel d rest hfuel hd
  have hquotes : 2 ≤ (stringChars k).length := by simp [stringChars]
  simp only [List.length_append, List.length_cons] at hfuel
  obtain ⟨j, rfl⟩ : ∃ j, fuel = j + 4 := ⟨fuel - 4, by omega⟩
  have hd : d.rest = bs ++ (stringChars k ++ ':' :: (bs' ++ (cs ++ (after ++ rest)))) := by
    simpa using hd
  have hbegins : Begins (stringChars k ++ ':' :: (bs' ++ (cs ++ (after ++ rest)))) :=
    ⟨⟨rfl, rfl, rfl⟩, _, _, rfl, by decide⟩
  have hspace := leads_space hd hbs hbegins.solid
  have hentry : entry (j + 3) .members d.space = member (j + 2) d.space := by
    rw [entry, beginsWith_dots (hspace.rest_eq ▸ hbegins), if_neg Bool.false_ne_true]
  obtain ⟨n, ⟨hpair, hn⟩, hleads⟩ := found_pair hbs' hlaid hvalue
    (show 8 * cs.length ≤ j by omega) hspace.rest_eq (settled_of_members hlaid' rest)
  obtain ⟨ns, ⟨hns, hquiet⟩, hleads'⟩ := hmembers (j + 3) _ rest (by omega) hleads.rest_eq
  have hall := hspace.trans (hleads.trans hleads')
  rw [← hentry] at hall
  have hdenotes (hspellable : ∀ m ∈ (k, v) :: ms, Spellable m.2) :
      Pairs Kind.isLayout (n :: ns) ((k, v) :: ms) := by
    rw [List.forall_mem_cons] at hspellable
    exact .pair (hpair hspellable.1) (hns hspellable.2)
  refine ⟨_, ⟨hdenotes, fun callee => List.forall_mem_cons.mpr ⟨hn callee, hquiet callee⟩⟩, ?_⟩
  show Leads d (entries (j + 4) .members d) _ rest
  rw [entries_of_begins .members hd hbs hbegins]
  exact hall

theorem found_nextMember {cs : List Char} {e : String × Json} {ms : Members}
    (h : Found source (.members true (e :: ms)) cs) :
    Found source (.members false (e :: ms)) (',' :: cs) := by
  intro fuel d rest hfuel hd
  rw [List.length_cons] at hfuel
  obtain ⟨k, rfl⟩ : ∃ k, fuel = k + 1 := ⟨fuel - 1, by omega⟩
  obtain ⟨m, ns, ⟨hns, hquiet⟩, hleads⟩ := leads_entriesAfter_comma .members hd
    fun e he => h k e rest (by omega) he
  exact ⟨_, ⟨fun hspellable => .punctuation (hns hspellable),
    fun callee => List.forall_mem_cons.mpr ⟨.leaf rfl, hquiet callee⟩⟩, hleads⟩

/-- Whatever is laid out is read. -/
theorem found_of_layout {p : Phrase} {cs : List Char} (h : Layout p cs) : Found source p cs := by
  induction h with
  | null =>
    exact found_word (by decide) (by decide) rfl (fun _ _ => .nullWord)
      (fun fuel d h => by simp [worded, h]) (by decide)
  | true =>
    exact found_word (by decide) (by decide) rfl (fun _ _ => .trueWord)
      (fun fuel d h => by simp [worded, h]) (by decide)
  | false =>
    exact found_word (by decide) (by decide) rfl (fun _ _ => .falseWord)
      (fun fuel d h => by simp [worded, h]) (by decide)
  | number => exact found_number
  | string s => exact found_string s
  | array _ ih => exact found_array ih
  | object _ ih => exact found_object ih
  | noItem hbs => exact found_noItem hbs
  | item hbs hvalue hitems ih ih' => exact found_item hbs hvalue hitems ih ih'
  | nextItem _ ih => exact found_nextItem ih
  | noMember hbs => exact found_noMember hbs
  | member hbs hbs' hvalue hmembers ih ih' => exact found_member hbs hbs' hvalue hmembers ih ih'
  | nextMember _ ih => exact found_nextMember ih

end Found

/-! ### Whole texts -/

theorem single_of_object {source : List Char} {n : Node source} {ms : Members}
    (h : Denotes Kind.isLayout n (.object ms)) : Single n := by
  cases h
  exact ⟨rfl, nofun, nofun, by simp [text]⟩

/-- The first node in parentheses that are the whole of a script. -/
theorem soleValue?_of_statement {source : List Char} {a b a' b' : Text.Mark source} {n : Node source}
    (hkind : n.kind = .parenthesized) (hstart : n.start.offset = 0)
    (hstop : n.stop = Text.byteLength source) :
    soleValue? (.branch .program a b [.branch .expressionStatement a' b' [n]]) =
      n.significant.head? := by
  have hstatement : (branch .expressionStatement a' b' [n]).significant = [n] := by
    have hsignificant : n.kind.isSignificant = true := by
      rw [hkind]
      rfl
    simp [significant, children, hsignificant]
  have hroot : (branch .program a b [branch .expressionStatement a' b' [n]]).significant =
      [branch .expressionStatement a' b' [n]] := rfl
  rw [soleValue?, hroot]
  simp only [hstatement]
  exact (if_pos rfl).trans (if_pos ⟨hkind, hstart, hstop⟩)

theorem soleValue?_of_parenthesized {source : List Char} {a b a' b' a'' b'' m m' : Text.Mark source}
    {n : Node source} (hn : n.kind.isSignificant = true) (hstart : a''.offset = 0)
    (hstop : b''.offset = Text.byteLength source) :
    soleValue? (.branch .program a b [.branch .expressionStatement a' b'
      [.branch .parenthesized a'' b'' [.leaf .punctuation m "(", n, .leaf .punctuation m' ")"]]]) =
        some n := by
  have hsign (m : Text.Mark source) (s : String) :
      (leaf .punctuation m s).kind.isSignificant = false := rfl
  have hinner : (branch .parenthesized a'' b''
      [leaf .punctuation m "(", n, leaf .punctuation m' ")"]).significant = [n] := by
    simp [significant, children, hsign, hn]
  refine (soleValue?_of_statement (n := branch .parenthesized a'' b'' _) rfl hstart hstop).trans ?_
  rw [hinner]
  rfl

/-- A text that is one sound node has the value of the node. The text begins behind one character. -/
theorem parseLiteral_of_node {text : String} {r : Read Json}
    (hbegins : ∀ rest, Begins (text.toList ++ rest))
    (hread : ∀ d : Draft (enclosed text), d.rest = text.toList ++ ['\n', ')'] → d.cursor.offset = 1 →
      ∃ n, (Single n ∧ valueOf n = r ∧ n.hasFault = false) ∧
        Leads d (expression (16 * (enclosed text).length + 54) d) [n] ['\n', ')']) :
    parseLiteral text = r.mapError (·.move (· - 1)) := by
  have henclosed : Enclosed (enclosed text) text.toList := ⟨rfl, hbegins⟩
  have hoffset (d : Draft (enclosed text)) (hd : d.rest = text.toList ++ ['\n', ')']) :
      d.cursor.offset = 1 := by
    have hsum := offset_add_byteLength d.cursor
    have hwhole : Text.byteLength (enclosed text) =
        1 + Text.byteLength (text.toList ++ ['\n', ')']) := rfl
    rw [show d.cursor.rest = _ from hd, hwhole] at hsum
    omega
  obtain ⟨a, b, a', b', a'', b'', m, n, m', hstart, hstop, hn, ⟨hvalue, hfault⟩, hparse⟩ :=
    parse_enclosed henclosed fun d hd => hread d hd (hoffset d hd)
  have hnone : (parse (enclosed text)).firstFault? = none := by
    have hwhole : (parse (enclosed text)).hasFault = false := by
      simp [hparse, hasFault, anyFault, hfault, Kind.isFault]
    rwa [hasFault_iff_firstFault?, Option.isSome_eq_false_iff, Option.isNone_iff_eq_none] at hwhole
  have hsole : soleValue? (parse (enclosed text)) = some n := by
    rw [hparse]
    exact soleValue?_of_parenthesized hn.significant hstart hstop
  rw [parseLiteral_of_soleValue hnone hsole, hvalue]

theorem parseLiteral_of_leads {text : String} {v : Json} (hbegins : ∀ rest, Begins (text.toList ++ rest))
    (hread : ∀ d : Draft (enclosed text), d.rest = text.toList ++ ['\n', ')'] →
      ∃ n, (Single n ∧ valueOf n = .ok v ∧ n.hasFault = false) ∧
        Leads d (expression (16 * (enclosed text).length + 54) d) [n] ['\n', ')']) :
    parseLiteral text = .ok v :=
  parseLiteral_of_node (r := .ok v) hbegins fun d hd _ => hread d hd

theorem settled_enclosed : Settled ['\n', ')'] :=
  show Settled (['\n'] ++ [')']) from
    .intro (List.forall_mem_singleton.mpr (.inr rfl)) (.parenthesis [])

theorem length_enclosed (text : String) : (enclosed text).length = text.toList.length + 3 := by
  rw [enclosed]
  simp

/-- Whichever blanks and line feeds stand between its tokens, the text of an object reads back. -/
theorem parseObject_of_laid {ms : Members} {text : String}
    (h : Laid (.object ms) text.toList) : parseObject text = .ok ms := by
  have hlength := length_enclosed text
  have hliteral : parseLiteral text = .ok (.object ms) :=
    parseLiteral_of_leads (begins_of_layout h.layout) fun d hd => by
      obtain ⟨n, ⟨hdenotes, hquiet⟩, hleads⟩ := found_of_layout h.layout
        (16 * (enclosed text).length + 54) d ['\n', ')'] (by omega) hd settled_enclosed
      have hdenotes := hdenotes h.spellable
      exact ⟨n, ⟨single_of_object hdenotes, valueOf_of_denotes hdenotes, (hquiet "").sound.1⟩, hleads⟩
  rw [parseObject, hliteral]
  rfl

/-- An object that is written as JSON, on one line or on many, reads back as it was. -/
theorem parseObject_written {ms : Members} (h : Spellable (.object ms)) :
    parseObject (Json.object ms).compact = .ok ms ∧ parseObject (Json.object ms).pretty = .ok ms := by
  refine ⟨parseObject_of_laid ?_, parseObject_of_laid ?_⟩
  · rw [compact, String.toList_ofList]
    exact laid_compactChars h
  · rw [pretty, String.toList_ofList]
    exact laid_prettyChars h 0

theorem parseObject_written_nested : ∃ ms : Members,
    Members.keys ms = ["a\n\x22", ""] ∧ Spellable (.object ms) ∧
      parseObject (Json.object ms).compact = .ok ms ∧
      parseObject (Json.object ms).pretty = .ok ms := by
  have hvalues : Spellable (.array [.number (.integer (-9223372036854775807) (by decide)),
      .number (.integer 18446744073709551615 (by decide)), .string "\x07\u2028", .null]) := by
    refine .array ?_
    simp only [List.forall_mem_cons]
    exact ⟨.number (by decide), .number (by decide), .string _, .null, List.forall_mem_nil _⟩
  have hinner : Spellable (.object [("b", .bool true)]) :=
    .object (by decide) (List.forall_mem_singleton.mpr (.bool true))
  have h : Spellable (.object [("a\n\x22", _), ("", _)]) :=
    .object (by decide) (List.forall_mem_cons.mpr ⟨hvalues, List.forall_mem_singleton.mpr hinner⟩)
  exact ⟨_, rfl, h, parseObject_written h⟩

end Workyard.Options
