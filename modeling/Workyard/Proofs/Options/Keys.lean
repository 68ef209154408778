import Workyard.Proofs.Decimal.Exact
import Workyard.Proofs.Options.Integers

/-!
# Numeric keys

The name of a property that is spelled as a number. An integer of at most 53 bits names the property by
its digits, unless it is spelled with a point or an exponent and has more than fifteen digits.
-/

namespace Workyard.Options

set_option autoImplicit false

open Decimal Json Script Script.Node Script.Draft

variable {source : List Char} {b : Base} {cs rest : List Char} {n : Nat} {x : Binary64}

/-- A natural number that is spelled as the name of a property. -/
inductive NumericKey (cs : List Char) (n : Nat) : Prop
  | natural {b : Base} (h : Natural b cs n)
  | numeral (h : Numeral cs n)

/-- The name of the property. -/
def keyName? (cs : List Char) : Option String :=
  (number? false (String.ofList cs)).map numericKey

/-- The number names the property by its digits. -/
def NamedByDigits (cs : List Char) (n : Nat) : Prop :=
  keyName? cs = some (String.ofList (digitsOf n))

/-! ### Names -/

theorem namedByDigits_natural (h : Natural b cs n) (hn : n < 9007199254740992) :
    NamedByDigits cs n := by
  have hsigned : signed false n = n := rfl
  have hz : -9223372036854775808 ≤ signed false n ∧ signed false n < 18446744073709551616 := by
    rw [hsigned]
    omega
  unfold NamedByDigits keyName?
  rw [number?_of_lt h (by omega) hz]
  show some (String.ofList (Number.chars (.integer (signed false n) hz))) = _
  rw [Number.chars, if_neg (by omega), natAbs_signed]

/-- A binary number is written with a point or with an exponent. -/
theorem write_ne_digitsOf (style : NumeralStyle) (d : Digits) (n : Nat) :
    style.write d ≠ digitsOf n := by
  have hsign : ∃ c ∈ style.write d, c.isDigit = false := by
    unfold NumeralStyle.write
    simp only
    split
    · split
      · exact ⟨'.', by simp, rfl⟩
      · split
        · exact ⟨'.', by simp, rfl⟩
        · exact ⟨'.', by simp, rfl⟩
    · exact ⟨'e', by simp, rfl⟩
  intro heq
  obtain ⟨c, hc, hdigit⟩ := hsign
  rw [heq] at hc
  exact not_mem_digitsOf hdigit hc

/-- A whole binary number is named by its digits only if there are at most fifteen of them. -/
theorem numericKey_real (h : Binary64.Is false n x) :
    numericKey (.real x) = String.ofList (digitsOf n) ↔ n < 1000000000000000 := by
  unfold numericKey
  simp only [h.whole?, h.negative_eq, Option.filter_some, decide_eq_true_eq]
  by_cases hn : n < 1000000000000000
  · rw [if_pos hn]
    exact iff_of_true rfl hn
  · rw [if_neg hn]
    refine iff_of_false (fun heq => ?_) hn
    have hchars : Number.chars (.real x) = numeralStyle.write x.shortest := by
      unfold Number.chars
      simp only [h.negative_eq, Bool.false_eq_true, if_false]
    have hwritten := String.ofList_injective heq
    rw [hchars] at hwritten
    exact write_ne_digitsOf _ _ _ hwritten

/-- Every key has a name, which is its digits if it is spelled as a natural number or has at most
fifteen of them, and not otherwise. -/
theorem keyName?_of_numericKey (h : NumericKey cs n) (hn : n < 9007199254740992) :
    (keyName? cs).isSome = true ∧
      (NamedByDigits cs n ↔ (∃ b, Natural b cs n) ∨ n < 1000000000000000) := by
  have hnatural {b : Base} (h : Natural b cs n) : (keyName? cs).isSome = true ∧
      (NamedByDigits cs n ↔ (∃ b, Natural b cs n) ∨ n < 1000000000000000) := by
    have hnamed := namedByDigits_natural h hn
    exact ⟨Option.isSome_of_eq_some hnamed, iff_of_true hnamed (.inl ⟨b, h⟩)⟩
  cases h with
  | natural h => exact hnatural h
  | numeral h =>
    rcases number?_numeral false h with ⟨m, hm, heq⟩ | ⟨m, e, heq, hnumber⟩
    · obtain rfl : n = m := by exact_mod_cast heq
      exact hnatural (.decimal hm)
    · obtain ⟨x, hx, his⟩ := Binary64.ofDecimal?_is false heq.symm hn
      have hname : keyName? cs = some (numericKey (.real x)) := by
        unfold keyName?
        rw [hnumber, hx]
        rfl
      refine ⟨Option.isSome_of_eq_some hname, ?_⟩
      have hiff : NamedByDigits cs n ↔ n < 1000000000000000 := by
        unfold NamedByDigits
        rw [hname, Option.some_inj]
        exact numericKey_real his
      rw [hiff]
      constructor
      · exact .inr
      · rintro (⟨b, h⟩ | hlt)
        · exact hiff.mp (namedByDigits_natural h hn)
        · exact hlt

/-! ### Objects -/

/-- A member whose key is spelled as a natural number. -/
structure NumericMember where
  key : List Char
  number : Nat
  value : Json

/-- The text of members after an opening brace, or after a member, up to the closing brace. -/
inductive MembersText : Bool → List NumericMember → List Char → Prop
  | none {first : Bool} {bs : List Char} (hbs : Blank bs) : MembersText first [] (bs ++ ['\x7d'])
  | member {bs bs' bs'' cs after : List Char} {e : NumericMember} {es : List NumericMember}
      (hbs : Blank bs) (hkey : NumericKey e.key e.number) (hbs' : Blank bs') (hbs'' : Blank bs'')
      (hvalue : Layout (.value e.value) cs) (hmembers : MembersText false es after) :
      MembersText true (e :: es) (bs ++ (e.key ++ (bs' ++ ':' :: (bs'' ++ (cs ++ after)))))
  | next {e : NumericMember} {es : List NumericMember} {cs : List Char}
      (hmembers : MembersText true (e :: es) cs) : MembersText false (e :: es) (',' :: cs)

/-- The member that a numeric key and its value make. The name is the digits of the number if the key
is an integer in one of the bases or the number has at most fifteen digits, and otherwise it is not. -/
structure NumericMember.Makes (e : NumericMember) (m : String × Json) : Prop where
  read : keyName? e.key = some m.1
  named : m.1 = String.ofList (digitsOf e.number) ↔
    (∃ b, Natural b e.key e.number) ∨ e.number < 1000000000000000
  value : m.2 = e.value

theorem NumericMember.exists_makes {e : NumericMember} (hkey : NumericKey e.key e.number)
    (hn : e.number < 9007199254740992) : ∃ name, e.Makes (name, e.value) := by
  obtain ⟨hsome, hnamed⟩ := keyName?_of_numericKey hkey hn
  obtain ⟨name, hname⟩ := Option.isSome_iff_exists.mp hsome
  rw [NamedByDigits, hname, Option.some_inj] at hnamed
  exact ⟨name, hname, hnamed, rfl⟩

theorem settled_of_membersText {es : List NumericMember} (h : MembersText false es cs)
    (rest : List Char) : Settled (cs ++ rest) := by
  cases h with
  | none hbs =>
    rw [List.append_assoc]
    exact .intro hbs (.brace rest)
  | next => exact (Ends.comma _).settled

/-- A key is one token, which begins with a digit or a point. -/
theorem NumericKey.token (h : NumericKey cs n) (hrest : Closes rest) :
    ∃ c t, cs = c :: t ∧ (c.isDigit = true ∨ c = '.') ∧ Lexeme.number (cs ++ rest) = cs.length := by
  cases h with
  | natural h =>
    have hlength := Script.number_natural h hrest
    obtain ⟨c, t, rfl, hc⟩ := h.head
    exact ⟨c, t, rfl, .inl hc, hlength⟩
  | numeral h =>
    have hlength := number_numeral h hrest
    obtain ⟨c, t, rfl, hc⟩ := h.head
    exact ⟨c, t, rfl, hc, hlength⟩

theorem closes_colon {bs : List Char} (hbs : Blank bs) (cs : List Char) : Closes (bs ++ ':' :: cs) := by
  intro c hc
  cases bs with
  | nil =>
    obtain rfl : ':' = c := Option.some.inj hc
    decide
  | cons b bs =>
    obtain rfl : b = c := Option.some.inj hc
    rcases hbs b List.mem_cons_self with rfl | rfl <;> decide

/-- A member with a numeric key is a pair. -/
theorem found_numericPair {k v : List Char} {bs bs' : List Char} {name : String} {value : Json}
    {fuel : Nat} {d : Draft source} (hkey : NumericKey k n) (hname : keyName? k = some name)
    (hbs : Blank bs) (hbs' : Blank bs') (hlaid : Layout (.value value) v) (hvalue : Spellable value)
    (hfuel : 8 * v.length ≤ fuel) (hd : d.rest = k ++ (bs ++ ':' :: (bs' ++ (v ++ rest))))
    (hrest : Settled rest) :
    ∃ m, (Pair Kind.isLayout m (name, value) ∧ ∀ callee, Quiet callee m) ∧
      Leads d (member (fuel + 2) d) [m] rest := by
  obtain ⟨c, t, rfl, hc, hlength⟩ := hkey.token (closes_colon hbs (bs' ++ (v ++ rest)))
  have hnumber : Lexeme.number (c :: (t ++ (bs ++ ':' :: (bs' ++ (v ++ rest))))) ≠ 0 := by
    rw [← List.cons_append, hlength]
    exact Nat.succ_ne_zero _
  have hproperty := leads_propertyName (d := fresh d.cursor) fuel hc hlength hd
  have hcolon := hproperty.trans (leads_space hproperty.rest_eq hbs ⟨rfl, rfl, rfl⟩)
  have hsign := hcolon.trans (leads_sign hcolon.rest_eq)
  have hspace := hsign.trans (leads_space hsign.rest_eq hbs' (begins_of_layout hlaid rest).solid)
  obtain ⟨m, ⟨hdenotes, hm⟩, hleads⟩ := found_of_layout hlaid fuel _ rest hfuel hspace.rest_eq hrest
  have hpair := (hspace.trans hleads).close (d := d) .pair
  rw [member_of_number hd hc hnumber, memberTail_of_colon d.cursor hcolon.rest_eq]
  obtain ⟨x, hx, rfl⟩ := Option.map_eq_some_iff.mp hname
  refine ⟨_, ⟨@Pair.intro _ _ _ _ _ _ _ _ _ [] [] (.number hx) (List.forall_mem_nil _)
    (List.forall_mem_nil _) (hdenotes hvalue), fun callee => ?_⟩, hpair⟩
  exact .triple rfl rfl (.leaf rfl) (.leaf rfl) (hm callee)

/-- Entries of which the first is a member with a numeric key. -/
theorem leads_entries_numericPair {k v after : List Char} {bs bs' bs'' : List Char} {name : String}
    {value : Json} {fuel : Nat} {d : Draft source} {P : List (Node source) → Prop}
    (hkey : NumericKey k n) (hname : keyName? k = some name) (hbs : Blank bs) (hbs' : Blank bs')
    (hbs'' : Blank bs'') (hlaid : Layout (.value value) v) (hvalue : Spellable value)
    (hfuel : 8 * v.length ≤ fuel)
    (hd : d.rest = bs ++ (k ++ (bs' ++ ':' :: (bs'' ++ (v ++ after))))) (hafter : Settled after)
    (hrest : ∀ d' : Draft source, d'.rest = after →
      ∃ ns, P ns ∧ Leads d' (entriesAfter (fuel + 3) .members d') ns rest) :
    ∃ m ns, (Pair Kind.isLayout m (name, value) ∧ ∀ callee, Quiet callee m) ∧ P ns ∧
      Leads d (entries (fuel + 4) .members d) (m :: ns) rest := by
  obtain ⟨c, t, hct, hc, hlength⟩ := hkey.token (closes_colon hbs' (bs'' ++ (v ++ after)))
  rw [hct] at hlength
  have hnumber : Lexeme.number (c :: (t ++ (bs' ++ ':' :: (bs'' ++ (v ++ after))))) ≠ 0 := by
    rw [← List.cons_append, hlength]
    exact Nat.succ_ne_zero _
  have hhead : c ∉ [',', ']', '\x7d', ')', ';'] := by
    have hmem := mem_numberSigns hc
    intro hmem'
    simp only [List.mem_cons, List.not_mem_nil, or_false] at hmem'
    rcases hmem' with rfl | rfl | rfl | rfl | rfl <;> exact absurd hmem (by decide)
  have hopen : d.rest = bs ++ c :: (t ++ (bs' ++ ':' :: (bs'' ++ (v ++ after)))) := by
    rw [hd, hct]
    rfl
  have hsolid := solid_of_number hc (t ++ (bs' ++ ':' :: (bs'' ++ (v ++ after))))
  have hspace := leads_space hopen hbs hsolid
  have hentry : entry (fuel + 3) .members d.space = member (fuel + 2) d.space := by
    rw [entry, beginsWith, hspace.rest_eq, dots_of_number hc hnumber, if_neg Bool.false_ne_true]
  have hkeyed := leads_space hd hbs (by rw [hct]; exact hsolid)
  obtain ⟨m, hm, hleads⟩ := found_numericPair hkey hname hbs' hbs'' hlaid hvalue hfuel
    hkeyed.rest_eq hafter
  obtain ⟨ns, hns, hleads'⟩ := hrest _ hleads.rest_eq
  refine ⟨m, ns, hm, hns, ?_⟩
  rw [entries_of_head .members hopen hbs hsolid hhead, hentry]
  exact hspace.trans (hleads.trans hleads')

/-- The text of a member is read as the member, whatever the text around it. -/
theorem found_members (source : List Char) {first : Bool} {es : List NumericMember} (h : MembersText first es cs)
    (hn : ∀ e ∈ es, e.number < 9007199254740992) (hv : ∀ e ∈ es, Spellable e.value) :
    ∃ ms, List.Forall₂ NumericMember.Makes es ms ∧
      ∀ (fuel : Nat) (d : Draft source) (rest : List Char), 8 * cs.length ≤ fuel →
        d.rest = cs ++ rest →
        ∃ ns, (Pairs Kind.isLayout ns ms ∧ ∀ callee, ∀ n ∈ ns, Quiet callee n) ∧
          Leads d (if first then entries fuel .members d else entriesAfter fuel .members d) ns rest := by
  induction h with
  | @none first bs hbs =>
    refine ⟨[], .nil, fun fuel d rest hfuel hd => ?_⟩
    rw [List.length_append, List.length_singleton] at hfuel
    obtain ⟨k, rfl⟩ : ∃ k, fuel = k + 1 := ⟨fuel - 1, by omega⟩
    rw [List.append_assoc] at hd
    obtain ⟨m, hleads⟩ := leads_listEnd first k .members hd hbs
    exact ⟨_, ⟨.punctuation .nil, fun _ => List.forall_mem_singleton.mpr (.leaf rfl)⟩, hleads⟩
  | @member bs bs' bs'' v after e es hbs hkey hbs' hbs'' hvalue hmembers ih =>
    rw [List.forall_mem_cons] at hn hv
    obtain ⟨ms, hms, hrest⟩ := ih hn.2 hv.2
    obtain ⟨name, hmakes⟩ := NumericMember.exists_makes hkey hn.1
    refine ⟨(name, e.value) :: ms, .cons hmakes hms, fun fuel d rest hfuel hd => ?_⟩
    have hpos : 0 < e.key.length := by
      obtain ⟨c, t, hct, -⟩ := hkey.token (closes_colon hbs' [])
      rw [hct]
      exact Nat.succ_pos _
    simp only [List.length_append, List.length_cons] at hfuel
    obtain ⟨j, rfl⟩ : ∃ j, fuel = j + 4 := ⟨fuel - 4, by omega⟩
    have hd : d.rest = bs ++ (e.key ++ (bs' ++ ':' :: (bs'' ++ (v ++ (after ++ rest))))) := by
      simpa using hd
    obtain ⟨m, ns, ⟨hpair, hm⟩, ⟨hns, hquiet⟩, hleads⟩ :=
      leads_entries_numericPair hkey hmakes.read hbs hbs' hbs'' hvalue hv.1
        (show 8 * v.length ≤ j by omega) hd (settled_of_membersText hmembers rest)
        fun d' hd' => hrest (j + 3) d' rest (by omega) hd'
    exact ⟨_, ⟨.pair hpair hns, fun callee => List.forall_mem_cons.mpr ⟨hm callee, hquiet callee⟩⟩,
      hleads⟩
  | @next e es cs h ih =>
    obtain ⟨ms, hms, hrest⟩ := ih hn hv
    refine ⟨ms, hms, fun fuel d rest hfuel hd => ?_⟩
    rw [List.length_cons] at hfuel
    obtain ⟨k, rfl⟩ : ∃ k, fuel = k + 1 := ⟨fuel - 1, by omega⟩
    obtain ⟨m, ns, ⟨hns, hquiet⟩, hleads⟩ := leads_entriesAfter_comma .members hd
      fun e he => hrest k e rest (by omega) he
    exact ⟨_, ⟨.punctuation hns, fun callee => List.forall_mem_cons.mpr ⟨.leaf rfl, hquiet callee⟩⟩,
      hleads⟩

/-- The members are those of the text, one for each name. -/
theorem parseLiteral_of_members {es : List NumericMember} (h : MembersText true es cs)
    (hn : ∀ e ∈ es, e.number < 9007199254740992) (hv : ∀ e ∈ es, Spellable e.value) :
    ∃ made, List.Forall₂ NumericMember.Makes es made ∧
      parseLiteral (String.ofList ('\x7b' :: cs)) = .ok (.object (Members.ofList made)) := by
  have hchars : (String.ofList ('\x7b' :: cs)).toList = '\x7b' :: cs := String.toList_ofList
  obtain ⟨made, hmade, hread⟩ :=
    found_members (enclosed (String.ofList ('\x7b' :: cs))) h hn hv
  have hbegins (rest : List Char) : Begins ('\x7b' :: cs ++ rest) :=
    ⟨⟨rfl, rfl, rfl⟩, _, _, rfl, by decide⟩
  refine ⟨made, hmade, parseLiteral_of_leads (by rwa [hchars]) fun d hd => ?_⟩
  rw [hchars] at hd
  have hlength := length_enclosed (String.ofList ('\x7b' :: cs))
  rw [hchars, List.length_cons] at hlength
  obtain ⟨k, hk⟩ : ∃ k, 16 * (enclosed (String.ofList ('\x7b' :: cs))).length + 54 = k + 4 := ⟨_, rfl⟩
  have hprimary : primary (k + 1) (fresh d.cursor) =
      (fresh d.cursor).enclose .object fun b => entries k .members (b.sign 1) := by
    have hd : (fresh d.cursor).rest = '\x7b' :: (cs ++ ['\n', ')']) := hd
    simp [primary, hd]
  obtain ⟨a, b, m, ns, ⟨hpairs, hquiet⟩, hleads⟩ := leads_listed .members hd
    (bare_of_head hd (by decide) rfl) settled_enclosed hprimary
    fun e he => hread k e ['\n', ')'] (by omega) he
  have hdenotes : Denotes Kind.isLayout
      (.branch .object a b (.leaf .punctuation m (String.ofList ['\x7b']) :: ns))
      (.object (Members.ofList made)) :=
    .object (.punctuation hpairs) (Members.merged_ofList made)
  have hsound : Quiet ""
      (.branch .object a b (.leaf .punctuation m (String.ofList ['\x7b']) :: ns)) :=
    .plain rfl rfl (List.forall_mem_cons.mpr ⟨.leaf rfl, hquiet ""⟩)
  rw [hk]
  exact ⟨_, ⟨single_of_object hdenotes, valueOf_of_denotes hdenotes, hsound.sound.1⟩, hleads⟩

/-- One number in two spellings, of which the later is rounded and still short. -/
def thirtyOnes : List NumericMember :=
  [⟨"0x1F".toList, 31, .null⟩, ⟨"3_1.0".toList, 31, .bool true⟩]

theorem membersText_thirtyOnes : MembersText true thirtyOnes "0x1F : null, 3_1.0:true\x7d".toList := by
  have hone : IsDigit 16 '1' 1 := ⟨by decide, .inl rfl⟩
  have hF : IsDigit 16 'F' 15 := ⟨by decide, .inr rfl⟩
  have hthree : IsDigit 10 '3' 3 := ⟨by decide, .inl rfl⟩
  have hten : IsDigit 10 '1' 1 := ⟨by decide, .inl rfl⟩
  have hzero : IsDigit 10 '0' 0 := ⟨by decide, .inl rfl⟩
  have hhex : Run 16 (['1'] ++ ['F']) (1 * 16 + 15) := .digit (.one hone) hF
  have hwhole : Run 10 (['3'] ++ ['_', '1']) (3 * 10 + 1) := .line (.one hthree) hten
  have hnumeral : Numeral "3_1.0".toList ((31 : Nat) : ℚ) := by
    have h := Numeral.whole ⟨hwhole, .inr (by decide)⟩ (.digits (.one hzero)) .none
    have hvalue : (((3 * 10 + 1 : Nat) : ℚ) + ((0 : Nat) : ℚ) / 10 ^ places ['0']) * 10 ^ (0 : Int) =
        ((31 : Nat) : ℚ) := by norm_num
    rw [hvalue] at h
    exact h
  have hnone : MembersText false [] ([] ++ ['\x7d']) := .none blank_nil
  have hlast := MembersText.member (e := ⟨"3_1.0".toList, 31, .bool true⟩) blank_one
    (.numeral hnumeral) blank_nil blank_nil .true hnone
  exact MembersText.member (e := ⟨"0x1F".toList, 31, .null⟩) blank_nil
    (.natural (.marked (b := .hexadecimal) (by decide) hhex)) blank_one blank_one .null (.next hlast)

/-- An object with numeric keys has one member for each name, with the last of its values. The names are
the digits of the numbers just where these are short or spelled as integers. -/
theorem parseLiteral_numericKeys {es : List NumericMember} (h : MembersText true es cs)
    (hn : ∀ e ∈ es, e.number < 9007199254740992) (hv : ∀ e ∈ es, Spellable e.value) :
    ∃ made ms, List.Forall₂ NumericMember.Makes es made ∧ Members.Merged made ms ∧
      parseLiteral (String.ofList ('\x7b' :: cs)) = .ok (.object ms) := by
  obtain ⟨made, hmade, hparse⟩ := parseLiteral_of_members h hn hv
  exact ⟨made, _, hmade, Members.merged_ofList made, hparse⟩

theorem parseLiteral_numericKeys_thirtyOnes :
    MembersText true thirtyOnes "0x1F : null, 3_1.0:true\x7d".toList ∧
      parseLiteral "\x7b0x1F : null, 3_1.0:true\x7d" = .ok (.object [("31", .bool true)]) := by
  have hnumbers : ∀ e ∈ thirtyOnes, e.number < 9007199254740992 := by
    simp [thirtyOnes]
  have hvalues : ∀ e ∈ thirtyOnes, Spellable e.value := by
    simp only [thirtyOnes, List.forall_mem_cons]
    exact ⟨.null, .bool true, List.forall_mem_nil _⟩
  obtain ⟨made, ms, hmade, hmerged, hparse⟩ :=
    parseLiteral_numericKeys membersText_thirtyOnes hnumbers hvalues
  obtain ⟨m, rest, hm, hrest, rfl⟩ := List.forall₂_cons_left_iff.mp hmade
  obtain ⟨m', last, hm', hlast, rfl⟩ := List.forall₂_cons_left_iff.mp hrest
  obtain rfl := List.forall₂_nil_left_iff.mp hlast
  have hfirst : m = ("31", .null) := Prod.ext (hm.named.mpr (.inr (by decide))) hm.value
  have hsecond : m' = ("31", .bool true) := Prod.ext (hm'.named.mpr (.inr (by decide))) hm'.value
  rw [Members.merged_iff.mp hmerged, hfirst, hsecond] at hparse
  exact ⟨membersText_thirtyOnes, hparse⟩

/-- An integer of sixteen digits with an exponent does not name the property by its digits. -/
theorem exponent_is_named_with_fraction : NumericKey ['1', 'e', '1', '5'] 1000000000000000 ∧
    String.ofList (digitsOf 1000000000000000) = "1000000000000000" ∧
    parseLiteral "\x7b1e15: 1\x7d" =
      .ok (.object [("1000000000000000.0", .number (.integer 1 (by decide)))]) := by
  have hone : IsDigit 10 '1' 1 := ⟨by decide, .inl rfl⟩
  have hfive : IsDigit 10 '5' 5 := ⟨by decide, .inl rfl⟩
  have hexponent : Run 10 (['1'] ++ ['5']) (1 * 10 + 5) := .digit (.one hone) hfive
  have hkey : NumericKey ['1', 'e', '1', '5'] 1000000000000000 := by
    have h := Numeral.whole ⟨.one hone, .inr (by decide)⟩ .none (.bare List.mem_cons_self hexponent)
    have hvalue : (((1 : Nat) : ℚ) + ((0 : Nat) : ℚ) / 10 ^ 0) * 10 ^ (((1 * 10 + 5 : Nat) : Int)) =
        ((1000000000000000 : Nat) : ℚ) := by norm_num
    rw [hvalue] at h
    exact .numeral h
  have hrange : -9223372036854775808 ≤ (1 : Int) ∧ (1 : Int) < 18446744073709551616 := by decide
  have hnone : MembersText false [] ([] ++ ['\x7d']) := .none blank_nil
  have htext := MembersText.member
    (e := ⟨['1', 'e', '1', '5'], 1000000000000000, .number (.integer 1 hrange)⟩)
    blank_nil hkey blank_nil blank_one .number hnone
  have hless : 1000000000000000 < 9007199254740992 := by decide
  obtain ⟨made, hmade, hparse⟩ := parseLiteral_of_members htext
    (List.forall_mem_singleton.mpr hless) (List.forall_mem_singleton.mpr (.number (by decide)))
  obtain ⟨m, rest, hm, hrest, rfl⟩ := List.forall₂_cons_left_iff.mp hmade
  obtain rfl := List.forall₂_nil_left_iff.mp hrest
  have hname : keyName? ['1', 'e', '1', '5'] = some "1000000000000000.0" := by decide +kernel
  have hmember : m = ("1000000000000000.0", .number (.integer 1 hrange)) :=
    Prod.ext (Option.some.inj (hm.read.symm.trans hname)) hm.value
  rw [hmember] at hparse
  exact ⟨hkey, by decide +kernel, hparse⟩

end Workyard.Options
