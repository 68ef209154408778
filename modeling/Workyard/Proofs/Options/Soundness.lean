import Workyard.Proofs.Options.Phrases
import Workyard.Proofs.Options.Readings

/-!
# What is read is expressed by tokens

Where reading finds a value, its text is written with tokens that express the value. The text is taken
apart from its end, since a token may depend on what comes after it.
-/

namespace Workyard.Options

set_option autoImplicit false

open Json (Phrase)
open Script Script.Node Script.Draft

/-- Up to where `rest` begins, the text is written with tokens that express the phrase. -/
structure Written (html : Bool) (p : Phrase) (cs rest : List Char) : Prop where
  tokens : ∀ {stop : List Char} {ts : List Token}, Tokenized stop false ts rest →
    ∃ us, Tokenized stop html us cs ∧ Expresses p us ts

/-! ### Phrases of a text -/

namespace Written

variable {html : Bool} {p : Phrase} {cs mid rest x : List Char} {v : Json} {vs : List Json}
  {es : List (String × Json)} {t : Token} {c : Char}

theorem prepend (h : Written html p cs rest) (hx : Spacing html x) : Written html p (x ++ cs) rest := by
  refine ⟨fun {stop ts} hts => ?_⟩
  obtain ⟨us, hus, hp⟩ := h.tokens hts
  exact ⟨us, hus.prepend hx, hp⟩

theorem single (hmeans : t.Means v) (ht : t.Valid) (hrest : Loose rest) (hcs : cs = t.chars ++ rest) :
    Written html (.value v) cs rest := by
  subst hcs
  refine ⟨fun {stop ts} hts => ?_⟩
  have hleaves : t.leaves = false := by cases hmeans <;> rfl
  have hapart : t.Apart rest := by
    cases hmeans <;> first | exact hrest | trivial
  exact ⟨t :: ts, .cons .nil ht hapart (hleaves ▸ hts), .single hmeans⟩

/-- Brackets, commas and colons stand apart from whatever comes next. -/
theorem sign_valid (hc : c ∈ [',', ':', '[', ']', '\x7b', '\x7d']) (cs : List Char) :
    (Token.sign c).Valid ∧ (Token.sign c).Apart cs := by
  simp only [List.mem_cons, List.not_mem_nil, or_false] at hc
  rcases hc with rfl | rfl | rfl | rfl | rfl | rfl <;>
    exact ⟨.sign (by decide), fun hsign => absurd hsign (by decide)⟩

theorem signed {cs : List Char} {y : Json.Number} (hc : c ∈ ['+', '-'])
    (hy : number? (c = '-') (String.ofList cs) = some y) (hne : cs ≠ [])
    (hlength : Lexeme.number cs = cs.length) (hx : Spacing true x)
    (hhead : (x ++ (cs ++ rest)).head? ≠ some c) (hrest : Loose rest) :
    Written html (.value (.number y)) (c :: (x ++ (cs ++ rest))) rest := by
  refine ⟨fun {stop ts} hts => ?_⟩
  have hleaves : (Token.sign c).leaves = true := by
    simp only [List.mem_cons, List.not_mem_nil, or_false] at hc
    rcases hc with rfl | rfl <;> rfl
  have hvalid : (Token.sign c).Valid := by
    refine .sign ?_
    simp only [List.mem_cons, List.not_mem_nil, or_false] at hc
    rcases hc with rfl | rfl <;> decide
  have hnumber : Tokenized stop true (.number cs :: ts) (x ++ (cs ++ rest)) :=
    .cons hx (.number hne hlength) hrest hts
  exact ⟨.sign c :: .number cs :: ts, .cons .nil hvalid (fun _ => hhead) (hleaves ▸ hnumber),
    .signed hc hy⟩

/-- A bracket or a comma before a phrase. -/
theorem open_sign (hc : c ∈ [',', '[', ']', '\x7b', '\x7d']) {ts : List Token} {stop : List Char}
    (hts : Tokenized stop false ts cs) : Tokenized stop html (.sign c :: ts) (c :: cs) := by
  obtain ⟨hvalid, hapart⟩ := sign_valid (c := c) (by revert hc; simp; tauto) cs
  have hleaves : (Token.sign c).leaves = false := by
    simp only [List.mem_cons, List.not_mem_nil, or_false] at hc
    rcases hc with rfl | rfl | rfl | rfl | rfl <;> rfl
  exact .cons .nil hvalid hapart (hleaves ▸ hts)

theorem array (h : Written false (.items true vs) cs rest) :
    Written html (.value (.array vs)) ('[' :: cs) rest := by
  refine ⟨fun {stop ts} hts => ?_⟩
  obtain ⟨us, hus, hp⟩ := h.tokens hts
  exact ⟨_, open_sign (by decide) hus, .array hp⟩

theorem object {ms : Json.Members} (h : Written false (.members true es) cs rest)
    (hms : Json.Members.Merged es ms) : Written html (.value (.object ms)) ('\x7b' :: cs) rest := by
  refine ⟨fun {stop ts} hts => ?_⟩
  obtain ⟨us, hus, hp⟩ := h.tokens hts
  exact ⟨_, open_sign (by decide) hus, .object hp hms⟩

theorem noItem (first : Bool) (rest : List Char) :
    Written false (.items first []) (']' :: rest) rest :=
  ⟨fun hts => ⟨_, open_sign (by decide) hts, .noItem⟩⟩

theorem item (hvalue : Written false (.value v) cs mid) (h : Written false (.items false vs) mid rest) :
    Written false (.items true (v :: vs)) cs rest := by
  refine ⟨fun {stop ts} hts => ?_⟩
  obtain ⟨us, hus, hitems⟩ := h.tokens hts
  obtain ⟨ws, hws, hv⟩ := hvalue.tokens hus
  exact ⟨ws, hws, .item hv hitems⟩

theorem nextItem (h : Written false (.items true vs) cs rest) :
    Written false (.items false vs) (',' :: cs) rest := by
  refine ⟨fun {stop ts} hts => ?_⟩
  obtain ⟨us, hus, hp⟩ := h.tokens hts
  exact ⟨_, open_sign (by decide) hus, .nextItem hp⟩

theorem noMember (first : Bool) (rest : List Char) :
    Written false (.members first []) ('\x7d' :: rest) rest :=
  ⟨fun hts => ⟨_, open_sign (by decide) hts, .noMember⟩⟩

theorem nextMember (first : Bool) (h : Written false (.members true es) cs rest) :
    Written false (.members first es) (',' :: cs) rest := by
  refine ⟨fun {stop ts} hts => ?_⟩
  obtain ⟨us, hus, hp⟩ := h.tokens hts
  exact ⟨_, open_sign (by decide) hus, .nextMember hp⟩

theorem member {k : String} (hkey : t.Names k) (ht : t.Valid) (hx : Spacing true x)
    (hvalue : Written true (.value v) cs mid) (h : Written false (.members false es) mid rest) :
    Written false (.members true ((k, v) :: es)) (t.chars ++ (x ++ ':' :: cs)) rest := by
  refine ⟨fun {stop ts} hts => ?_⟩
  obtain ⟨us, hus, hmembers⟩ := h.tokens hts
  obtain ⟨ws, hws, hv⟩ := hvalue.tokens hus
  have hleaves : t.leaves = false := by cases hkey <;> rfl
  have hloose : Loose (x ++ ':' :: cs) := loose_spacing hx (loose_cons (.inr (by decide)) cs)
  have hapart : t.Apart (x ++ ':' :: cs) := by
    cases hkey <;> first | exact hloose | trivial
  obtain ⟨hvalid, hcolon⟩ := sign_valid (c := ':') (by decide) cs
  have hpair : Tokenized stop t.leaves (.sign ':' :: ws) (x ++ ':' :: cs) := by
    rw [hleaves]
    exact .cons hx hvalid hcolon hws
  exact ⟨t :: .sign ':' :: ws, .cons .nil ht hapart hpair, .member hkey hv hmembers⟩

end Written

variable {source : List Char} {d e : Draft source} {fuel : Nat} {n : Node source}
  {ns ms : List (Node source)} {cs rest : List Char} {html : Bool} {v : Json} {vs : List Json}
  {es : List (String × Json)}

/-! ### Tokens that were read -/

/-- A token within a line is the same when it stands for itself. -/
theorem exists_token {f : List Char → Nat} (hf : InLine f) (hne : f d.rest ≠ 0) :
    ∃ w, d.rest = w ++ d.rest.drop (f d.rest) ∧ d.cursor.peek (f d.rest) = String.ofList w ∧
      w ≠ [] ∧ f (w ++ d.rest.drop (f d.rest)) = w.length := by
  have hlength : (d.rest.take (f d.rest)).length = f d.rest := List.length_take_of_le (hf.le d.rest)
  refine ⟨d.rest.take (f d.rest), (List.take_append_drop _ _).symm, rfl, fun hnil => hne ?_, ?_⟩
  · rw [hnil] at hlength
    exact hlength.symm
  · rw [List.take_append_drop, hlength]

theorem exists_wordToken {kind : Kind} (h : Leads d (d.wordToken kind) ns rest)
    (hne : Lexeme.word d.rest ≠ 0) (hrest : Loose rest) :
    ∃ w, d.rest = w ++ rest ∧ d.word = String.ofList w ∧ (Token.word w).Valid := by
  obtain ⟨w, hw, hpeek, hwne, hlength⟩ := exists_token inLine_word hne
  obtain rfl : d.rest.drop (Lexeme.word d.rest) = rest := h.rest_eq
  exact ⟨w, hw, hpeek, .word hwne ((word_iff hrest.stops).mp hlength)⟩

theorem exists_numberToken (h : Leads d d.number ns rest) (hne : Lexeme.number d.rest ≠ 0)
    (hrest : Loose rest) :
    ∃ w, d.rest = w ++ rest ∧ d.cursor.peek (Lexeme.number d.rest) = String.ofList w ∧ w ≠ [] ∧
      Lexeme.number w = w.length := by
  obtain ⟨w, hw, hpeek, hwne, hlength⟩ := exists_token inLine_number hne
  obtain rfl : d.rest.drop (Lexeme.number d.rest) = rest := h.rest_eq
  exact ⟨w, hw, hpeek, hwne, (number_iff hrest.closes).mp hlength⟩

theorem exists_quotation {q : Quote} {k : Kind} {a b : Text.Mark source} (hd : d.rest = q.char :: cs)
    (h : Leads d (q.read fuel d) [.branch k a b ns] rest) (hk : k.isQuoted = true)
    (hns : ∀ n ∈ ns, n.IsLeafOf Kind.isQuotedPart) :
    ∃ t, d.rest = t ++ rest ∧ Quotation q t (cook (piecesOf ns)) :=
  quotation_of_read hd h (by rintro rfl; cases hk) hns

/-! ### Values -/

section Behind

variable {awaiting : Bool} {m : Text.Mark source} {s : String} {c : Char}

/-- White space and comments before the items are none of them. -/
theorem Items.behind (hms : ∀ n ∈ ms, Passed html n) (h : Items Kind.isLayout awaiting (ms ++ ns) vs) :
    (∀ n ∈ ms, n.kind ≠ .htmlComment) ∧ Items Kind.isLayout awaiting ns vs := by
  induction ms with
  | nil => exact ⟨List.forall_mem_nil _, h⟩
  | cons n ms ih =>
    rw [List.forall_mem_cons] at hms
    obtain ⟨k, m, s, rfl, hk, -⟩ := hms.1
    rw [List.cons_append] at h
    cases h with
    | comment h =>
      obtain ⟨hall, h⟩ := ih hms.2 h
      exact ⟨List.forall_mem_cons.mpr ⟨nofun, hall⟩, h⟩
    | bracket => rcases hk with hk | ⟨-, hk⟩ <;> cases hk
    | comma => rcases hk with hk | ⟨-, hk⟩ <;> cases hk
    | item hn => cases hn <;> rcases hk with hk | ⟨-, hk⟩ <;> cases hk

theorem Pairs.behind (hms : ∀ n ∈ ms, Passed html n) (h : Pairs Kind.isLayout (ms ++ ns) es) :
    (∀ n ∈ ms, n.kind ≠ .htmlComment) ∧ Pairs Kind.isLayout ns es := by
  induction ms with
  | nil => exact ⟨List.forall_mem_nil _, h⟩
  | cons n ms ih =>
    rw [List.forall_mem_cons] at hms
    obtain ⟨k, m, s, rfl, hk, -⟩ := hms.1
    rw [List.cons_append] at h
    cases h with
    | comment h =>
      obtain ⟨hall, h⟩ := ih hms.2 h
      exact ⟨List.forall_mem_cons.mpr ⟨nofun, hall⟩, h⟩
    | punctuation => rcases hk with hk | ⟨-, hk⟩ <;> cases hk
    | pair hn => cases hn

theorem Items.behind_bracket (h : Items Kind.isLayout true (.leaf .punctuation m s :: ns) vs) :
    Items Kind.isLayout true ns vs := by
  cases h with
  | bracket _ h => exact h
  | item hn => cases hn

/-- A closing bracket is no item. -/
theorem Items.eq_nil (h : Items Kind.isLayout awaiting [.leaf .punctuation m s] vs) (hs : s ≠ ",") :
    vs = [] := by
  cases h with
  | bracket _ h =>
    cases h
    rfl
  | comma => exact absurd rfl hs
  | item hn => cases hn

theorem Pairs.behind_bracket (h : Pairs Kind.isLayout (.leaf .punctuation m s :: ns) es) :
    Pairs Kind.isLayout ns es := by
  cases h with
  | punctuation h => exact h
  | pair hn => cases hn

theorem rest_behind (hd : d.rest = c :: cs) : (sign 1 (fresh d.cursor)).rest = cs :=
  congrArg (List.drop 1) hd

theorem ordinary_of_sign (h : Leads (sign 1 (fresh d.cursor)) e ns rest) (hns : Ordinary ns) :
    Ordinary e.nodes := by
  rw [h.nodes_eq]
  refine List.forall_mem_append.mpr ⟨fun n hn => hns n (List.mem_reverse.mp hn), ?_⟩
  exact List.forall_mem_singleton.mpr rfl

end Behind

/-- What reading at a bound on the depth finds is written with tokens. -/
structure Sound (source : List Char) (fuel : Nat) : Prop where
  value : ∀ {html} {d : Draft source} {n rest v}, Ordinary (Draft.expression fuel d).nodes →
    Leads d (Draft.expression fuel d) [n] rest → Denotes Kind.isLayout n v → Loose rest →
      Written html (.value v) d.rest rest
  items : ∀ {d : Draft source} {ns rest vs}, Ordinary (entries fuel .items d).nodes →
    Leads d (entries fuel .items d) ns rest → Items Kind.isLayout true ns vs →
      Written false (.items true vs) d.rest rest
  itemsAfter : ∀ {d : Draft source} {ns rest vs}, Ordinary (entriesAfter fuel .items d).nodes →
    Leads d (entriesAfter fuel .items d) ns rest → Items Kind.isLayout false ns vs →
      Written false (.items false vs) d.rest rest
  members : ∀ {d : Draft source} {ns rest es}, Ordinary (entries fuel .members d).nodes →
    Leads d (entries fuel .members d) ns rest → Pairs Kind.isLayout ns es →
      Written false (.members true es) d.rest rest
  membersAfter : ∀ {d : Draft source} {ns rest es}, Ordinary (entriesAfter fuel .members d).nodes →
    Leads d (entriesAfter fuel .members d) ns rest → Pairs Kind.isLayout ns es →
      Written false (.members false es) d.rest rest

/-- What stands behind an opening bracket. -/
theorem exists_behind_sign {l : Listing}
    (h : Leads (fresh d.cursor) (entries fuel l (sign 1 (fresh d.cursor))) ns rest) :
    ∃ ms, ns = .leaf .punctuation d.cursor.mark (d.cursor.peek 1) :: ms ∧
      Leads (sign 1 (fresh d.cursor)) (entries fuel l (sign 1 (fresh d.cursor))) ms rest := by
  obtain ⟨ms, hms⟩ := exists_leads (adds_entries_all l fuel (sign 1 (fresh d.cursor)))
  have hsign : Leads (fresh d.cursor) (sign 1 (fresh d.cursor))
      [.leaf .punctuation d.cursor.mark (d.cursor.peek 1)] (sign 1 (fresh d.cursor)).rest := ⟨rfl, rfl⟩
  obtain ⟨rfl, rfl⟩ := leads_unique h (hsign.trans hms)
  exact ⟨ms, rfl, hms⟩

theorem ReadsPrimary.written (ih : Sound source fuel) (h : ReadsPrimary fuel d e)
    (he : Leads d e [n] rest) (hv : Denotes Kind.isLayout n v) (hrest : Loose rest) :
    Written html (.value v) d.rest rest := by
  cases h with
  | number hne =>
    obtain ⟨w, hw, hpeek, hwne, hlength⟩ := exists_numberToken he hne hrest
    obtain rfl := he.eq_node rfl
    cases hv with
    | number hx =>
      rw [hpeek] at hx
      exact .single (.number hx) (.number hwne hlength) hrest hw
  | @word w kind hw hword =>
    have hne : Lexeme.word d.rest ≠ 0 := by
      intro hzero
      rw [word_eq_empty rfl hzero] at hword
      rw [← hword] at hw
      revert hw
      simp [valueWords]
    obtain ⟨t, ht, hpeek, hvalid⟩ := exists_wordToken he hne hrest
    obtain rfl := he.eq_node rfl
    have htext : t = w.toList := by rw [← hword, hpeek, String.toList_ofList]
    subst htext
    simp only [valueWords, List.mem_cons, List.not_mem_nil, or_false, Prod.mk.injEq] at hw
    rcases hw with ⟨rfl, rfl⟩ | ⟨rfl, rfl⟩ | ⟨rfl, rfl⟩
    · cases hv
      exact .single .trueWord hvalid hrest ht
    · cases hv
      exact .single .falseWord hvalid hrest ht
    · cases hv
      exact .single .nullWord hvalid hrest ht
  | @quoted q t hd =>
    obtain ⟨-, ns, -, a, b, rfl⟩ := exists_tail he fun hk => by
      have hplain := hv.isPlain
      rw [hk] at hplain
      cases hplain
    have htext : ∃ s, v = .string s ∧ ∃ t, d.rest = t ++ rest ∧ Quotation q t s := by
      cases q with
      | backtick =>
        cases hv with
        | text hk h => exact ⟨_, rfl, exists_quotation hd he hk h⟩
      | single =>
        cases hv with
        | text hk h => exact ⟨_, rfl, exists_quotation hd he hk h⟩
      | double =>
        cases hv with
        | text hk h => exact ⟨_, rfl, exists_quotation hd he hk h⟩
    obtain ⟨s, rfl, t, ht, hquotation⟩ := htext
    exact .single (.text hquotation) (.quoted hquotation) hrest ht
  | array hd =>
    obtain ⟨a, b, ns, rfl, hns⟩ := he.of_enclose
    obtain ⟨ms, rfl, hms⟩ := exists_behind_sign hns
    cases hv with
    | text hk => cases hk
    | array hvs =>
      have hvs := hvs.behind_bracket
      have ho := ordinary_of_sign hms hvs.ordinary
      have hitems := ih.items ho hms hvs
      rw [rest_behind hd] at hitems
      rw [hd]
      exact .array hitems
  | object hd =>
    obtain ⟨a, b, ns, rfl, hns⟩ := he.of_enclose
    obtain ⟨ms, rfl, hms⟩ := exists_behind_sign hns
    cases hv with
    | text hk => cases hk
    | object hes hmerged =>
      have hes := hes.behind_bracket
      have ho := ordinary_of_sign hms hes.ordinary
      have hmembers := ih.members ho hms hes
      rw [rest_behind hd] at hmembers
      rw [hd]
      exact .object hmembers hmerged

/-- What is read as a number under a sign is one. -/
theorem exists_number {m : Text.Mark source} {s : String} (ho : Ordinary (operand fuel d).nodes)
    (h : Leads d (operand fuel d) [.leaf .number m s] rest) (hrest : Loose rest) :
    ∃ w, d.rest = w ++ rest ∧ s = String.ofList w ∧ w ≠ [] ∧ Lexeme.number w = w.length := by
  cases fuel with
  | zero => exact absurd ho (not_ordinary_missing d)
  | succ fuel =>
    have hoperand := readsOperand_of_operand ho
    generalize operand (fuel + 1) d = e at h hoperand
    cases hoperand with
    | sign =>
      obtain ⟨a, b, ns, hns, -⟩ := h.of_enclose
      cases hns
    | word =>
      obtain ⟨a, b, ns, hns, -⟩ := h.of_enclose
      cases hns
    | primary _ hprimary =>
      have h := h.of_append
      cases hprimary with
      | number hne =>
        obtain ⟨w, hw, hpeek, hwne, hlength⟩ := exists_numberToken h hne hrest
        obtain ⟨-, -, rfl⟩ := Node.leaf.inj (h.eq_node rfl)
        exact ⟨w, hw, hpeek, hwne, hlength⟩
      | @word w kind hw =>
        obtain ⟨rfl, -, -⟩ := Node.leaf.inj (h.eq_node rfl)
        simp [valueWords] at hw
      | quoted =>
        obtain ⟨_, _, _, a, b, hns⟩ := exists_tail h (by rw [Node.kind]; decide)
        cases hns
      | array =>
        obtain ⟨a, b, ns, hns, -⟩ := h.of_enclose
        cases hns
      | object =>
        obtain ⟨a, b, ns, hns, -⟩ := h.of_enclose
        cases hns

/-- The nodes of an operand under a sign or a word. -/
theorem exists_operand {start : Draft source} {first last : Node source} {between : List (Node source)}
    (h : Leads (fresh d.cursor) (operand fuel start.space) (first :: between ++ [last]) rest)
    (hstart : start.nodes = [n]) (hsound : anyFault (between ++ [last]) = false) :
    first = n ∧ Leads start.space (operand fuel start.space) [last] rest := by
  have hfirst : Leads (fresh d.cursor) start [n] start.rest := ⟨by rw [hstart]; rfl, rfl⟩
  obtain ⟨ms, hms⟩ := exists_leads (adds_space start)
  have hone := (reads fuel).operand start.space
  obtain ⟨ns, hns⟩ := exists_leads hone
  obtain ⟨heq, rfl⟩ := leads_unique h ((hfirst.trans hms).trans hns)
  have hbehind : between ++ [last] = ms ++ ns := (List.cons.inj heq).2
  rw [hbehind, anyFault_append, Bool.or_eq_false_iff] at hsound
  obtain ⟨x, rfl⟩ := hns.exists_one hone hsound.2
  obtain ⟨-, hlast⟩ := List.append_inj' hbehind rfl
  exact ⟨(List.cons.inj heq).1, hlast ▸ hns⟩

/-- An operand under a sign is a sign, white space and comments, and a number. -/
theorem ReadsOperand.written (ih : ∀ k < fuel, Sound source k) (h : ReadsOperand fuel d e)
    (he : Leads d e [n] rest) (hv : Denotes Kind.isLayout n v) (hrest : Loose rest) :
    Written html (.value v) d.rest rest := by
  cases h with
  | primary hk h =>
    show Written html (.value v) (fresh d.cursor).rest rest
    exact h.written (ih _ hk) he.of_append hv hrest
  | @sign c t hd ht =>
    obtain ⟨a, b, ns, rfl, hns⟩ := he.of_enclose
    cases hv with
    | text hk => cases hk
    | @signed _ _ m m' s s' x between hsign hbetween hx =>
      have hsound : anyFault (between ++ [.leaf .number m' s']) = false := by
        rw [anyFault_append, anyFault_of_leaves isFault_of_isLayout hbetween]
        rfl
      have ho : Ordinary (operand fuel (Draft.sign 1 (fresh d.cursor)).space).nodes := by
        refine hns.ordinary (List.forall_mem_append.mpr ⟨List.forall_mem_cons.mpr ⟨rfl, ?_⟩, ?_⟩)
        · intro n hn
          obtain ⟨k, m, s, rfl, hk⟩ := hbetween n hn
          exact isPlain_of_isLayout k hk
        · exact List.forall_mem_singleton.mpr rfl
      obtain ⟨hfirst, hoperand⟩ := exists_operand hns rfl hsound
      obtain ⟨-, -, rfl⟩ := Node.leaf.inj hfirst
      obtain ⟨w, hw, rfl, hne, hlength⟩ := exists_number ho hoperand hrest
      obtain ⟨y, _, hy, hspacing, -⟩ := exists_spacing_space (d := Draft.sign 1 (fresh d.cursor))
        (by rw [hw]; exact List.append_ne_nil_of_left_ne_nil hne rest)
      rw [rest_behind hd, hw] at hy
      have hpeek : (fresh d.cursor).cursor.peek 1 = String.ofList [c] := by
        rw [Text.Cursor.peek, show (fresh d.cursor).cursor.rest = c :: t from hd]
        rfl
      rw [hpeek] at hsign hx
      have hc : c ∈ ['+', '-'] := by
        rcases hsign with hsign | hsign
        · have hchars : [c] = ['-'] := String.ofList_injective hsign
          obtain rfl := (List.cons.inj hchars).1
          decide
        · have hchars : [c] = ['+'] := String.ofList_injective hsign
          obtain rfl := (List.cons.inj hchars).1
          decide
      have hnegative : decide (String.ofList [c] = "-") = decide (c = '-') := by
        simp only [List.mem_cons, List.not_mem_nil, or_false] at hc
        rcases hc with rfl | rfl <;> decide
      rw [hnegative] at hx
      rw [show d.rest = c :: (y ++ (w ++ rest)) from hy ▸ hd]
      refine .signed hc hx hne hlength (hspacing true fun _ _ _ => rfl) ?_ hrest
      rw [← hy]
      exact ht (by simpa using hc)
  | word hword =>
    obtain ⟨a, b, ns, rfl, hns⟩ := he.of_enclose
    cases hv with
    | text hk => cases hk
    | @signed _ _ m m' s s' x between hsign hbetween hx =>
      have hsound : anyFault (between ++ [.leaf .number m' s']) = false := by
        rw [anyFault_append, anyFault_of_leaves isFault_of_isLayout hbetween]
        rfl
      obtain ⟨hfirst, -⟩ := exists_operand hns rfl hsound
      obtain ⟨-, -, rfl⟩ := Node.leaf.inj hfirst
      have hsign : d.word = "-" ∨ d.word = "+" := hsign
      rcases hsign with hsign | hsign
      · rw [hsign] at hword
        exact absurd hword (by decide)
      · rw [hsign] at hword
        exact absurd hword (by decide)

/-! ### Items -/

theorem loose_of_goesOn {l : Listing} {s : Draft source} (h : GoesOn l fuel s ns rest) :
    Loose s.rest := by
  cases h with
  | close hs =>
    rw [hs]
    cases l <;> exact loose_cons (.inr (by decide)) _
  | comma hs =>
    rw [hs]
    exact loose_cons (.inr (by decide)) _

/-- Right behind an entry stands no part of it. -/
theorem ReadsEntry.loose {l : Listing} {j k : Nat} (h : ReadsEntry l k j d n ns rest) :
    Loose (entryReader l j d).rest := by
  obtain ⟨_, x, _, _, -, -, hx, hspacing, -, hgoes⟩ := goesOn_of_entriesAfter h.ordinary_after h.after
  rw [hx]
  exact loose_spacing hspacing (loose_of_goesOn hgoes)

theorem items_written (ih : ∀ k < fuel, Sound source k) (ho : Ordinary (entries fuel .items d).nodes)
    (h : Leads d (entries fuel .items d) ns rest) (hvs : Items Kind.isLayout true ns vs) :
    Written false (.items true vs) d.rest rest := by
  obtain ⟨k, x, ms, ns', hk, rfl, hx, hspacing, hms, hgoes⟩ :=
    goesOn_of_entries ho h (anyFault_of_items hvs)
  obtain ⟨hhtml, hvs⟩ := hvs.behind hms
  rw [hx]
  refine .prepend ?_ (hspacing false fun n hn hkind => absurd hkind (hhtml n hn))
  rcases hgoes with hgoes | ⟨j, n, es, hj, rfl, hentry⟩
  · cases hgoes with
    | close hs =>
      obtain rfl := hvs.eq_nil (by decide)
      rw [hs]
      exact .noItem true rest
    | comma =>
      cases hvs with
      | bracket hs => exact absurd rfl hs
      | item hn => cases hn
  · cases hvs with
    | comment => cases hentry.significant
    | bracket => cases hentry.significant
    | item hn hafter =>
      exact .item ((ih j (by omega)).value hentry.ordinary hentry.entry hn hentry.loose)
        ((ih k hk).itemsAfter hentry.ordinary_after hentry.after hafter)

theorem itemsAfter_written (ih : ∀ k < fuel, Sound source k)
    (ho : Ordinary (entriesAfter fuel .items d).nodes)
    (h : Leads d (entriesAfter fuel .items d) ns rest) (hvs : Items Kind.isLayout false ns vs) :
    Written false (.items false vs) d.rest rest := by
  obtain ⟨k, x, ms, ns', hk, rfl, hx, hspacing, hms, hgoes⟩ := goesOn_of_entriesAfter ho h
  obtain ⟨-, hvs⟩ := hvs.behind hms
  rw [hx]
  refine .prepend ?_ hspacing
  cases hgoes with
  | close hs =>
    obtain rfl := hvs.eq_nil (by decide)
    rw [hs]
    exact .noItem false rest
  | comma hs ho h =>
    rw [hs]
    cases hvs with
    | bracket hs => exact absurd rfl hs
    | item hn => cases hn
    | comma hvs =>
      have hitems := (ih k hk).items ho h hvs
      rw [show (d.gap.sign 1).rest = _ from congrArg (List.drop 1) hs] at hitems
      exact .nextItem hitems

/-! ### Members -/

theorem Pair.ordinary {k : Kind} {a b : Text.Mark source} {e : String × Json}
    (h : Pair Kind.isLayout (.branch k a b ns) e) : Ordinary ns := by
  have hlayout {ms : List (Node source)} (hms : ∀ n ∈ ms, n.IsLeafOf Kind.isLayout) : Ordinary ms := by
    intro n hn
    obtain ⟨k, m, s, rfl, hk⟩ := hms n hn
    exact isPlain_of_isLayout k hk
  cases h with
  | intro hkey hbefore hafter hvalue =>
    refine List.forall_mem_append.mpr ⟨List.forall_mem_append.mpr
      ⟨List.forall_mem_cons.mpr ⟨hkey.isPlain, hlayout hbefore⟩,
        List.forall_mem_cons.mpr ⟨rfl, hlayout hafter⟩⟩, ?_⟩
    exact List.forall_mem_singleton.mpr hvalue.isPlain

/-- The key of a pair comes first and the value last. -/
theorem Pair.ends {kind : Kind} {a b : Text.Mark source} {key value : Node source} {k : String}
    (ms : List (Node source)) (h : Pair Kind.isLayout (.branch kind a b (key :: ms ++ [value])) (k, v)) :
    Names key k ∧ Denotes Kind.isLayout value v := by
  generalize hns : key :: ms ++ [value] = ns at h
  cases h with
  | intro hkey _ _ hvalue =>
    obtain ⟨hfront, hlast⟩ := List.append_inj' hns rfl
    obtain ⟨rfl, -⟩ := List.cons.inj hfront
    obtain ⟨rfl, -⟩ := List.cons.inj hlast
    exact ⟨hkey, hvalue⟩

theorem ReadsKey.exists_token {k : String} (h : ReadsKey fuel d e) (he : Leads d e [n] rest)
    (hk : Names n k) (hrest : Loose rest) :
    ∃ t : Token, d.rest = t.chars ++ rest ∧ t.Names k ∧ t.Valid := by
  cases h with
  | number hne =>
    obtain ⟨w, hw, hpeek, hwne, hlength⟩ := exists_numberToken he hne hrest
    obtain rfl := he.eq_node rfl
    cases hk with
    | number hx => exact ⟨.number w, hw, .number (hpeek ▸ hx), .number hwne hlength⟩
  | word hne =>
    obtain ⟨w, hw, hpeek, hvalid⟩ := exists_wordToken he hne hrest
    obtain rfl := he.eq_node rfl
    cases hk with
    | name =>
      refine ⟨.word w, hw, ?_, hvalid⟩
      show (Token.word w).Names d.word
      rw [hpeek]
      exact .word
  | @quoted q t hq hd =>
    obtain ⟨-, ns, -, a, b, rfl⟩ := exists_tail he fun hmissing => by
      have hplain := hk.isPlain
      rw [hmissing] at hplain
      cases hplain
    cases q with
    | backtick => exact absurd rfl hq
    | single =>
      cases hk with
      | string h =>
        obtain ⟨w, hw, hquotation⟩ := exists_quotation hd he rfl h
        exact ⟨.quoted .single w, hw, .text hq hquotation, .quoted hquotation⟩
    | double =>
      cases hk with
      | string h =>
        obtain ⟨w, hw, hquotation⟩ := exists_quotation hd he rfl h
        exact ⟨.quoted .double w, hw, .text hq hquotation, .quoted hquotation⟩

theorem rest_ne_nil_of_expression (ho : Ordinary (Draft.expression fuel d).nodes) : d.rest ≠ [] := by
  intro hd
  have hword : d.word = "" := word_eq_empty hd rfl
  obtain ⟨k, e, -, -, hoperand⟩ := exists_readsOperand ho
  cases hoperand with
  | sign ht => cases hd.symm.trans ht
  | word hmem =>
    rw [show (fresh d.cursor).word = "" from hword] at hmem
    exact absurd hmem (by decide)
  | primary _ h =>
    cases h with
    | number hne => exact hne (by rw [show (fresh (fresh d.cursor).cursor).rest = [] from hd]; rfl)
    | word hw hmem =>
      rw [show (fresh (fresh d.cursor).cursor).word = "" from hword] at hmem
      subst hmem
      simp [valueWords] at hw
    | quoted ht => cases hd.symm.trans ht
    | array ht => cases hd.symm.trans ht
    | object ht => cases hd.symm.trans ht

/-- A pair is a key, a colon and a value, with white space and comments between. -/
theorem exists_pair {k : String} (ih : ∀ k < fuel, Sound source k) (ho : Ordinary (member fuel d).nodes)
    (h : Leads d (member fuel d) [n] rest) (hn : Pair Kind.isLayout n (k, v)) (hrest : Loose rest) :
    ∃ (t : Token) (x cs : List Char), d.rest = t.chars ++ (x ++ ':' :: cs) ∧ t.Names k ∧ t.Valid ∧
      Spacing true x ∧ Written true (.value v) cs rest := by
  obtain ⟨j, rfl, heq⟩ := exists_memberTail ho
  rw [heq] at ho h
  have hsound : anyFault (memberTail j d.cursor (propertyName j (fresh d.cursor))).nodes = false := by
    rw [h.of_append.nodes_eq]
    simp [fresh, anyFault, hasFault_of_pair hn]
  obtain ⟨i, t, rfl, hcolon⟩ := exists_colon (ordinary_append_iff.mp ho).1 hsound
  rw [memberTail_of_colon _ hcolon] at h
  have hreads : Ordinary (propertyName (i + 1) (fresh d.cursor)).nodes → ReadsKey _ _ _ :=
    readsKey_of_propertyName
  have hkeyOne := (reads (i + 1)).propertyName (fresh d.cursor)
  generalize propertyName (i + 1) (fresh d.cursor) = e at hreads hkeyOne hcolon h
  obtain ⟨a, b, ns, rfl, hns⟩ := h.of_close
  have hsound := hasFault_of_pair hn
  have hordinary := hn.ordinary
  rw [hasFault, Bool.or_eq_false_iff] at hsound
  -- What was read, one after the other.
  obtain ⟨keys, hkeys⟩ := exists_leads hkeyOne
  obtain ⟨before, hbefore⟩ := exists_leads (adds_space e)
  obtain ⟨after, hafter⟩ := exists_leads (adds_space (e.space.sign 1))
  have hvalueOne := (reads i).expression (e.space.sign 1).space
  obtain ⟨values, hvalues⟩ := exists_leads hvalueOne
  obtain ⟨rfl, rfl⟩ := leads_unique hns
    ((((hkeys.trans hbefore).trans (leads_sign hcolon)).trans hafter).trans hvalues)
  simp only [anyFault_append, Bool.or_eq_false_iff] at hsound
  obtain ⟨key, rfl⟩ := hkeys.exists_one hkeyOne hsound.2.1.1.1.1
  obtain ⟨value, rfl⟩ := hvalues.exists_one hvalueOne hsound.2.2
  obtain ⟨hname, hdenotes⟩ := Pair.ends (before ++ [_] ++ after) (by simpa using hn)
  have hkeyOrdinary : Ordinary e.nodes :=
    hkeys.ordinary (List.forall_mem_singleton.mpr hname.isPlain)
  have hvalueOrdinary := hns.ordinary hordinary
  obtain ⟨x, _, hx, hspacing, -⟩ := exists_spacing_space (d := e)
    (by rw [hcolon]; exact List.cons_ne_nil ':' t)
  rw [hcolon] at hx
  have hloose : Loose e.rest := by
    rw [hx]
    exact loose_spacing (hspacing true fun _ _ _ => rfl) (loose_cons (.inr (by decide)) t)
  obtain ⟨w, hw, hnames, hvalid⟩ := (hreads hkeyOrdinary).exists_token hkeys hname hloose
  refine ⟨w, x, t, hx ▸ hw, hnames, hvalid, hspacing true fun _ _ _ => rfl, ?_⟩
  obtain ⟨y, _, hy, hspacing, -⟩ := exists_spacing_space (d := e.space.sign 1)
    (rest_ne_nil_of_expression hvalueOrdinary)
  rw [show (e.space.sign 1).rest = t from congrArg (List.drop 1) hcolon] at hy
  rw [hy]
  exact .prepend ((ih i (by omega)).value hvalueOrdinary hvalues hdenotes hrest)
    (hspacing true fun _ _ _ => rfl)

theorem members_written (ih : ∀ k < fuel, Sound source k)
    (ho : Ordinary (entries fuel .members d).nodes) (h : Leads d (entries fuel .members d) ns rest)
    (hes : Pairs Kind.isLayout ns es) : Written false (.members true es) d.rest rest := by
  obtain ⟨k, x, ms, ns', hk, rfl, hx, hspacing, hms, hgoes⟩ :=
    goesOn_of_entries ho h (anyFault_of_pairs hes)
  obtain ⟨hhtml, hes⟩ := hes.behind hms
  rw [hx]
  refine .prepend ?_ (hspacing false fun n hn hkind => absurd hkind (hhtml n hn))
  rcases hgoes with hgoes | ⟨j, n, fs, hj, rfl, hentry⟩
  · cases hgoes with
    | close hs =>
      cases hes.behind_bracket
      rw [hs]
      exact .noMember true rest
    | comma hs ho h =>
      have hmembers := (ih k hk).members ho h hes.behind_bracket
      rw [show (d.space.sign 1).rest = _ from congrArg (List.drop 1) hs] at hmembers
      rw [hs]
      exact .nextMember true hmembers
  · cases hes with
    | comment => cases hentry.significant
    | punctuation => cases hentry.significant
    | @pair _ e _ _ hn hafter =>
      obtain ⟨t, y, cs, hcs, hkey, ht, hy, hvalue⟩ := exists_pair (fun i hi => ih i (by omega))
        hentry.ordinary hentry.entry hn hentry.loose
      rw [hcs]
      exact .member hkey ht hy hvalue ((ih k hk).membersAfter hentry.ordinary_after hentry.after hafter)

theorem membersAfter_written (ih : ∀ k < fuel, Sound source k)
    (ho : Ordinary (entriesAfter fuel .members d).nodes)
    (h : Leads d (entriesAfter fuel .members d) ns rest) (hes : Pairs Kind.isLayout ns es) :
    Written false (.members false es) d.rest rest := by
  obtain ⟨k, x, ms, ns', hk, rfl, hx, hspacing, hms, hgoes⟩ := goesOn_of_entriesAfter ho h
  obtain ⟨-, hes⟩ := hes.behind hms
  rw [hx]
  refine .prepend ?_ hspacing
  cases hgoes with
  | close hs =>
    cases hes.behind_bracket
    rw [hs]
    exact .noMember false rest
  | comma hs ho h =>
    have hmembers := (ih k hk).members ho h hes.behind_bracket
    rw [show (d.gap.sign 1).rest = _ from congrArg (List.drop 1) hs] at hmembers
    rw [hs]
    exact .nextMember false hmembers

/-! ### All of them -/

theorem value_written (ih : ∀ k < fuel, Sound source k)
    (ho : Ordinary (Draft.expression fuel d).nodes) (h : Leads d (Draft.expression fuel d) [n] rest)
    (hv : Denotes Kind.isLayout n v) (hrest : Loose rest) : Written html (.value v) d.rest rest := by
  obtain ⟨k, e, hk, heq, hoperand⟩ := exists_readsOperand ho
  rw [heq] at h
  show Written html (.value v) (fresh d.cursor).rest rest
  exact hoperand.written (fun i hi => ih i (by omega)) h.of_append hv hrest

theorem sound_of_lt (ih : ∀ k < fuel, Sound source k) : Sound source fuel where
  value := value_written ih
  items := items_written ih
  itemsAfter := itemsAfter_written ih
  members := members_written ih
  membersAfter := membersAfter_written ih

theorem sound (source : List Char) (fuel : Nat) : Sound source fuel := by
  induction fuel using Nat.strong_induction_on with
  | _ fuel ih => exact sound_of_lt ih

end Workyard.Options
