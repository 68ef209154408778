import Workyard.Proofs.Options.Phrases
import Workyard.Proofs.Options.Readings

/-!
# What tokens express is read

Wherever tokens stand that express a phrase, reading finds it, however far apart the tokens are. Eight
levels of depth for each character are enough.
-/

namespace Workyard.Options

set_option autoImplicit false

open Json (Phrase)
open Script Script.Node Script.Draft

variable {source stop : List Char} {d e : Draft source} {fuel : Nat} {n : Node source}
  {ns ms : List (Node source)} {cs rest x : List Char} {html : Bool} {v : Json} {vs : List Json}
  {es : List (String × Json)} {t : Token} {ts us ws : List Token} {c : Char}
  {p : Phrase}

/-! ### How tokens begin -/

theorem Token.Valid.ne_nil (h : t.Valid) : t.chars ≠ [] := by
  cases h with
  | sign => exact List.cons_ne_nil _ _
  | word hne => exact hne
  | number hne => exact hne
  | quoted h =>
    obtain ⟨t, ps, rfl, -⟩ := h
    exact List.cons_ne_nil _ _

/-- A word begins with a letter or with an escape. -/
theorem head_of_word (h : Lexeme.word (c :: cs) ≠ 0) : Lexeme.isWordStart c = true ∨ c = '\\' := by
  by_contra hc
  rw [not_or, Bool.not_eq_true] at hc
  refine h ?_
  rw [Lexeme.word, hc.1, unicodeEscape_of_ne hc.2]
  rfl

theorem head_of_number (h : Lexeme.number (c :: cs) ≠ 0) : c.isDigit = true ∨ c = '.' := by
  by_contra hc
  rw [not_or, Bool.not_eq_true] at hc
  exact h (number_eq_zero hc.1 hc.2 cs)

/-- No word begins with a sign of the grammar. -/
theorem ne_of_word (h : Lexeme.word (c :: cs) ≠ 0) {y : Char} (hy : Lexeme.isWordPart y = false)
    (hback : y ≠ '\\') : c ≠ y := by
  rintro rfl
  rcases head_of_word h with hstart | rfl
  · rw [Lexeme.isWordStart, hy] at hstart
    cases hstart
  · exact hback rfl

theorem number_of_word (h : Lexeme.word (c :: cs) ≠ 0) : Lexeme.number (c :: cs) = 0 := by
  by_contra hnumber
  exact h (word_of_number (head_of_number hnumber) cs)

/-- A token that stands for a value or for a name, or a sign before a value. -/
def Token.opens : Token → Bool
  | sign c => c == '+' || c == '-' || c == '[' || c == '\x7b'
  | _ => true

theorem Expresses.opens (h : Expresses (.value v) (t :: ts) us) : t.opens = true := by
  cases h with
  | single h => cases h <;> rfl
  | signed hc =>
    simp only [List.mem_cons, List.not_mem_nil, or_false] at hc
    rcases hc with rfl | rfl <;> rfl
  | array => rfl
  | object => rfl

theorem Token.Names.opens {k : String} (h : t.Names k) : t.opens = true := by
  cases h <;> rfl

theorem admits_of_opens (h : t.opens = true) : t.admits = false := by
  cases t with
  | sign c =>
    rw [Token.admits, beq_eq_false_iff_ne]
    rintro rfl
    cases h
  | _ => rfl

/-- An entry begins with a token for a value or a name. -/
theorem begins_of_opens (hopens : t.opens = true) (ht : t.Valid) (hcs : t.Apart cs) :
    ∃ c r, t.chars ++ cs = c :: r ∧ c ∉ [',', ']', '\x7d', ')', ';'] ∧
      Lexeme.startsWith "..." (c :: r) = false := by
  have hdots {c : Char} (hc : c ≠ '.') (r : List Char) : Lexeme.startsWith "..." (c :: r) = false := by
    simp [Lexeme.startsWith, List.isPrefixOf, hc.symm]
  cases ht with
  | @sign c hc =>
    refine ⟨c, cs, rfl, ?_⟩
    simp only [List.mem_cons, List.not_mem_nil, or_false] at hc
    rcases hc with rfl | rfl | rfl | rfl | rfl | rfl | rfl | rfl
    all_goals first
      | exact absurd hopens (by decide)
      | exact ⟨by decide, hdots (by decide) cs⟩
  | @word w hne h =>
    obtain ⟨c, r, rfl⟩ := List.exists_cons_of_ne_nil hne
    have hword : Lexeme.word (c :: r) ≠ 0 := by
      rw [h]
      exact Nat.succ_ne_zero _
    refine ⟨c, r ++ cs, rfl, ?_, hdots (ne_of_word hword (by decide) (by decide)) _⟩
    simp only [List.mem_cons, List.not_mem_nil, or_false, not_or]
    exact ⟨ne_of_word hword (by decide) (by decide), ne_of_word hword (by decide) (by decide),
      ne_of_word hword (by decide) (by decide), ne_of_word hword (by decide) (by decide),
      ne_of_word hword (by decide) (by decide)⟩
  | @number w hne h =>
    obtain ⟨c, r, rfl⟩ := List.exists_cons_of_ne_nil hne
    have hnumber : Lexeme.number (c :: (r ++ cs)) ≠ 0 := by
      have hlength := (number_iff (s := c :: r) (y := cs) (Loose.closes hcs)).mpr h
      rw [List.cons_append] at hlength
      rw [hlength]
      exact Nat.succ_ne_zero _
    have hc := head_of_number hnumber
    refine ⟨c, r ++ cs, rfl, ?_, dots_of_number hc hnumber⟩
    have hmem := mem_numberSigns hc
    intro hnot
    simp only [List.mem_cons, List.not_mem_nil, or_false] at hnot
    rcases hnot with rfl | rfl | rfl | rfl | rfl <;> exact absurd hmem (by decide)
  | @quoted q w s h =>
    obtain ⟨r, ps, rfl, -⟩ := h
    refine ⟨q.char, r ++ cs, rfl, ?_⟩
    cases q <;> exact ⟨by decide, hdots (by decide) _⟩

/-! ### Values of one token -/

theorem Tokenized.ended_behind (h : Tokenized stop false us rest) (hus : Ending us) (hstop : Ends stop)
    (e : Draft source) (he : e.rest = rest) : Ended e :=
  Tokenized.ends (he ▸ h) hus hstop

/-- A number that is valid on its own is read wherever nothing of it stands behind. -/
theorem number_ahead {w : List Char} (hne : w ≠ []) (h : Lexeme.number w = w.length) (hrest : Loose rest)
    (hd : d.rest = w ++ rest) : Lexeme.number d.rest = w.length ∧
      ∃ c t, d.rest = c :: t ∧ (c.isDigit = true ∨ c = '.') := by
  have hlength : Lexeme.number d.rest = w.length := by
    rw [hd]
    exact (number_iff hrest.closes).mpr h
  obtain ⟨c, t, rfl⟩ := List.exists_cons_of_ne_nil hne
  have hnonzero : Lexeme.number (c :: (t ++ rest)) ≠ 0 := by
    rw [hd] at hlength
    rw [← List.cons_append, hlength]
    exact Nat.succ_ne_zero _
  exact ⟨hlength, c, t ++ rest, hd, head_of_number hnonzero⟩

theorem leads_numberToken (fuel : Nat) {w : List Char} (hne : w ≠ []) (h : Lexeme.number w = w.length)
    (hrest : Loose rest) (hd : d.rest = w ++ rest) : Bare d ∧
      Leads d (primary (fuel + 1) d) [.leaf .number d.cursor.mark (String.ofList w)] rest := by
  obtain ⟨hlength, c, t, hhead, hc⟩ := number_ahead hne h hrest hd
  have hmem := mem_numberSigns hc
  have hsign : c ∉ ['!', '~', '+', '-'] ∧ c ∉ primarySigns := by
    simp only [List.mem_cons, List.not_mem_nil, or_false] at hmem
    rcases hmem with rfl | rfl | rfl | rfl | rfl | rfl | rfl | rfl | rfl | rfl | rfl <;> decide
  have hnonzero : (Lexeme.number d.rest != 0) = true := by
    rw [hlength]
    exact bne_iff_ne.mpr fun hzero => hne (List.length_eq_zero_iff.mp hzero)
  refine ⟨bare_of_head hhead hsign.1 (word_of_number hc t), ?_⟩
  rw [primary_of_other hhead hsign.2, if_pos hnonzero, Draft.number, hlength]
  exact leads_token .number hd

/-- How a word with a value is read. -/
structure ReadsWord (source : List Char) (w : String) (kind : Kind) (c : Char) (t : List Char) : Prop where
  eq : w.toList = c :: t
  digit : c.isDigit = false
  parts : ∀ x ∈ c :: t, Lexeme.isWordPart x = true
  sign : c ∉ ['!', '~', '+', '-']
  operand : w ∉ ["typeof", "void", "delete", "await", "yield"]
  worded : ∀ {fuel : Nat} {d : Draft source}, d.word = w → Draft.worded (fuel + 1) d = d.wordToken kind

theorem exists_readsWord (source : List Char) {w : String} {kind : Kind} (hw : (w, kind) ∈ valueWords) :
    ∃ c t, ReadsWord source w kind c t := by
  simp only [valueWords, List.mem_cons, List.not_mem_nil, or_false, Prod.mk.injEq] at hw
  rcases hw with ⟨rfl, rfl⟩ | ⟨rfl, rfl⟩ | ⟨rfl, rfl⟩
  · exact ⟨'t', ['r', 'u', 'e'], String.toList_ofList, rfl, by decide, by decide, by decide,
      fun hd => by simp only [Draft.worded, hd]⟩
  · exact ⟨'f', ['a', 'l', 's', 'e'], String.toList_ofList, rfl, by decide, by decide, by decide,
      fun hd => by simp only [Draft.worded, hd]⟩
  · exact ⟨'n', ['u', 'l', 'l'], String.toList_ofList, rfl, by decide, by decide, by decide,
      fun hd => by simp only [Draft.worded, hd]⟩

theorem leads_valueWord {w : String} {kind : Kind} (hw : (w, kind) ∈ valueWords)
    (hd : d.rest = w.toList ++ rest) (hrest : Loose rest) :
    Bare d ∧ Leads d (primary (fuel + 2) d) [.leaf kind d.cursor.mark w] rest := by
  obtain ⟨c, t, h⟩ := exists_readsWord source hw
  rw [h.eq] at hd
  have htext : String.ofList (c :: t) = w := by rw [← h.eq, String.ofList_toList]
  obtain ⟨hword, hleads⟩ := leads_wordToken kind h.digit h.parts hrest.stops hd
  rw [htext] at hword hleads
  refine ⟨⟨⟨c, t ++ rest, hd, h.sign⟩, hword ▸ h.operand⟩, ?_⟩
  rw [primary_of_word h.parts h.digit hrest.stops hd, h.worded hword]
  exact hleads

/-- A token with a value is read as a node that denotes it. -/
theorem Token.Means.leads (h : t.Means v) (ht : t.Valid) (hrest : t.Apart rest)
    (hd : d.rest = t.chars ++ rest) (hfuel : t.chars.length < fuel) : Bare d ∧
      ∃ n, (Denotes Kind.isLayout n v ∧ n.text ≠ ",") ∧ Leads d (primary (fuel + 1) d) [n] rest := by
  obtain ⟨k, rfl⟩ : ∃ k, fuel = k + 1 := ⟨fuel - 1, by omega⟩
  cases h with
  | trueWord =>
    have hmem : ("true", Kind.trueWord) ∈ valueWords := by decide
    obtain ⟨hbare, hleads⟩ := leads_valueWord hmem hd hrest
    exact ⟨hbare, _, ⟨.trueWord, by simp [Node.text]⟩, hleads⟩
  | falseWord =>
    have hmem : ("false", Kind.falseWord) ∈ valueWords := by decide
    obtain ⟨hbare, hleads⟩ := leads_valueWord hmem hd hrest
    exact ⟨hbare, _, ⟨.falseWord, by simp [Node.text]⟩, hleads⟩
  | nullWord =>
    have hmem : ("null", Kind.nullWord) ∈ valueWords := by decide
    obtain ⟨hbare, hleads⟩ := leads_valueWord hmem hd hrest
    exact ⟨hbare, _, ⟨.nullWord, by simp [Node.text]⟩, hleads⟩
  | @number w x hx =>
    cases ht with
    | number hne hlength =>
      obtain ⟨hbare, hleads⟩ := leads_numberToken _ hne hlength hrest hd
      have hcomma : String.ofList w ≠ "," := by
        intro heq
        rw [heq, show number? false "," = none from rfl] at hx
        cases hx
      exact ⟨hbare, _, ⟨.number hx, hcomma⟩, hleads⟩
  | @text q cs s hquotation =>
    obtain ⟨a, b, ns, ⟨hns, rfl⟩, hleads⟩ := hquotation.leads hfuel hd
    obtain ⟨r, ps, rfl, -⟩ := hquotation
    have hquote : d.rest = q.char :: (r ++ rest) := hd
    have hkind : q.kind.isQuoted = true := by cases q <;> rfl
    refine ⟨bare_of_quote hquote, .branch q.kind a b ns, ⟨.text hkind hns, by simp [Node.text]⟩, ?_⟩
    rw [primary_of_literal (k + 1) hquote]
    exact hleads

/-- A number under a sign. -/
theorem leads_signedNumber {cs w : List Char} {x : Json.Number} (hc : c ∈ ['+', '-'])
    (hx : number? (c = '-') (String.ofList w) = some x) (hd : d.rest = c :: cs) (hcs : cs.head? ≠ some c)
    (hw : Tokenized stop true (.number w :: us) cs) (hus : Ending us) (hstop : Ends stop) :
    ∃ n rest, (Denotes Kind.isLayout n (.number x) ∧ n.text ≠ ",") ∧
      Leads d (Draft.expression (fuel + 5) d) [n] rest ∧ Tokenized stop false us rest ∧
        rest.length < d.rest.length := by
  have hd : (fresh d.cursor).rest = c :: cs := hd
  have hsign := leads_sign hd
  have hrest : ((fresh d.cursor).sign 1).rest = cs := hsign.rest_eq
  obtain ⟨ns, hns, hspace, hle, rest, hahead, hvalid, hloose, hus'⟩ := (hrest ▸ hw).leads_space
  have hended (e : Draft source) (he : e.rest = rest) : Ended e := hus'.ended_behind hus hstop e he
  cases hvalid with
  | number hne hlength =>
    obtain ⟨hbare, hnumber⟩ := leads_numberToken fuel
      (d := fresh ((fresh d.cursor).sign 1).space.cursor) hne hlength hloose hahead
    have hoperand := leads_operand_of_ends (d := ((fresh d.cursor).sign 1).space) ⟨hbare.sign, hbare.word⟩
      (hended _ hnumber.rest_eq) hnumber
    have hunary := ((hsign.trans hspace).trans hoperand).close (d := fresh d.cursor) .unary
    have hread : operand (fuel + 4) (fresh d.cursor) = (fresh d.cursor).append
        ((operand (fuel + 3) ((fresh d.cursor).sign 1).space).close .unary (fresh d.cursor).cursor) :=
      operand_of_sign hc hd hcs
    rw [← hread] at hunary
    have hminus : (String.ofList [c] = "-" ∨ String.ofList [c] = "+") ∧
        decide (String.ofList [c] = "-") = decide (c = '-') := by
      simp only [List.mem_cons, List.not_mem_nil, or_false] at hc
      rcases hc with rfl | rfl <;> decide
    have hdenotes (a b m m' : Text.Mark source) : Denotes Kind.isLayout
        (.branch .unary a b (.leaf .punctuation m (String.ofList [c]) :: ns ++
          [.leaf .number m' (String.ofList w)])) (.number x) := by
      refine .signed hminus.1 (fun n hn => (hns n hn).isLeafOf) ?_
      rw [hminus.2]
      exact hx
    refine ⟨_, rest, ⟨hdenotes _ _ _ _, by simp [text]⟩, leads_expression_of_ends (hended _ hunary.rest_eq) hunary, hus', ?_⟩
    have hlength : ((fresh d.cursor).sign 1).space.rest.length = w.length + rest.length := by
      rw [hahead]
      exact List.length_append
    rw [hrest] at hle
    rw [show d.rest = c :: cs from hd, List.length_cons]
    omega

/-! ### Lists -/

/-- Reading a list from its opening bracket or a comma on, or from behind an entry. -/
def readOn (l : Listing) : Bool → Nat → Draft source → Draft source
  | true, fuel => entries (fuel + 3) l
  | false, fuel => entriesAfter fuel l

section Lists

variable {l : Listing} {first : Bool}

theorem admits_closing (l : Listing) : (Token.sign l.closing).admits = false := by
  cases l <;> rfl

theorem leaves_closing (l : Listing) : (Token.sign l.closing).leaves = false := by
  cases l <;> rfl

/-- A sign that ends the list or goes on with it comes next. -/
theorem exists_ahead (first : Bool) (h : Tokenized stop false (.sign c :: ts) d.rest)
    (hadmits : (Token.sign c).admits = false) : ∃ ms e rest, (∀ n ∈ ms, Passed false n) ∧
      e = (if first then d.space else d.gap) ∧ Leads d e ms (c :: rest) ∧ rest.length < d.rest.length ∧
        Tokenized stop (Token.sign c).leaves ts rest := by
  cases first with
  | true =>
    obtain ⟨ms, hms, hspace, hle, rest, hahead, -, -, hts⟩ := h.leads_space
    rw [hadmits] at hms
    rw [hahead] at hle hspace
    exact ⟨ms, _, rest, hms, rfl, hspace, hle, hts⟩
  | false =>
    obtain ⟨ms, hms, hgap, hle, rest, hahead, -, -, hts⟩ := h.leads_gap hadmits
    rw [hahead] at hle hgap
    exact ⟨ms, _, rest, hms, rfl, hgap, hle, hts⟩

theorem leads_closing (h : Tokenized stop false (.sign l.closing :: us) d.rest)
    (hfuel : 8 * d.rest.length ≤ fuel) : ∃ ms m rest, (∀ n ∈ ms, Passed false n) ∧
      Leads d (readOn l first fuel d) (ms ++ [.leaf .punctuation m (String.ofList [l.closing])]) rest ∧
        Tokenized stop false us rest ∧ rest.length < d.rest.length := by
  obtain ⟨ms, e, rest, hms, he, hleads, hlt, hus⟩ := exists_ahead first h (admits_closing l)
  rw [leaves_closing l] at hus
  obtain ⟨k, rfl⟩ : ∃ k, fuel = k + 1 := ⟨fuel - 1, by omega⟩
  have hread : readOn l first (k + 1) d = e.sign 1 := by
    cases first with
    | true =>
      subst he
      exact entries_of_closing _ l hleads.rest_eq
    | false =>
      subst he
      exact entriesAfter_of_closing _ l hleads.rest_eq
  rw [hread]
  exact ⟨ms, _, rest, hms, hleads.trans (leads_sign hleads.rest_eq), hus, hlt⟩

theorem exists_comma (first : Bool) (h : Tokenized stop false (.sign ',' :: ts) d.rest)
    (hfuel : 8 * d.rest.length ≤ fuel) : ∃ ms m k e, (∀ n ∈ ms, Passed false n) ∧
      Leads d e (ms ++ [.leaf .punctuation m ","]) e.rest ∧ Tokenized stop false ts e.rest ∧
        e.rest.length < d.rest.length ∧ 8 * e.rest.length ≤ k ∧
          readOn l first fuel d = readOn l true k e := by
  obtain ⟨ms, e, rest, hms, he, hleads, hlt, hts⟩ := exists_ahead first h rfl
  have hall := hleads.trans (leads_sign hleads.rest_eq)
  have hrest : (e.sign 1).rest = rest := hall.rest_eq
  obtain ⟨k, rfl⟩ : ∃ k, fuel = k + 8 := ⟨fuel - 8, by omega⟩
  have hread : ∃ k', 8 * rest.length ≤ k' ∧ readOn l first (k + 8) d = entries (k' + 3) l (e.sign 1) := by
    cases first with
    | true =>
      subst he
      exact ⟨k + 7, by omega, entries_of_comma _ l hleads.rest_eq⟩
    | false =>
      subst he
      exact ⟨k + 4, by omega, entriesAfter_of_comma _ l hleads.rest_eq⟩
  obtain ⟨k', hk, hread⟩ := hread
  exact ⟨ms, _, k', e.sign 1, hms, hrest.symm ▸ hall, hrest.symm ▸ hts, hrest.symm ▸ hlt,
    hrest.symm ▸ hk, hread⟩

/-- An entry comes next. -/
theorem exists_entry (fuel : Nat) (h : Tokenized stop false (t :: ts) d.rest) (ht : t.opens = true) :
    ∃ ms s, (∀ n ∈ ms, Passed false n) ∧ Leads d s ms s.rest ∧ Here stop s.rest (t :: ts) ∧
      s.rest.length ≤ d.rest.length ∧
        readOn l true fuel d = readOn l false (fuel + 2) (entryReader l (fuel + 1) s) := by
  obtain ⟨ms, hms, hspace, hle, rest, hahead, hvalid, hapart, hts⟩ := h.leads_space
  rw [admits_of_opens ht] at hms
  obtain ⟨c, r, hc, hmem, hdots⟩ := begins_of_opens ht hvalid hapart
  refine ⟨ms, d.space, hms, hspace, ⟨rest, hahead, hvalid, hapart, hts⟩, hle, ?_⟩
  have hplain : d.space.beginsWith "..." = false := by
    rw [beginsWith, hahead, hc]
    exact hdots
  show entries (fuel + 3) l d = _
  rw [entries_of_other l (hahead.trans hc) hmem, entry_of_dots l hplain]
  rfl

end Lists

/-! ### Members -/

/-- Only white space and comments in the manner of HTML may come before a colon that is not found
by reading on in the line. -/
theorem head_of_colon (h : Tokenized stop false (.sign ':' :: ts) d.rest) :
    ∃ c r, d.gap.rest = c :: r ∧ c ∈ [':', '<', '-'] := by
  generalize hd : d.rest = r at h
  cases h with
  | @cons _ _ x _ cs hx =>
    obtain ⟨y, z, rfl, hy, hz⟩ := hx.exists_plain
    have hahead : ∃ c r, z ++ ':' :: cs = c :: r ∧ c ∈ [':', '<', '-'] := by
      rcases hz with rfl | ⟨r, rfl | rfl⟩
      · exact ⟨':', cs, rfl, by decide⟩
      · exact ⟨'<', r ++ ':' :: cs, rfl, by decide⟩
      · exact ⟨'-', r ++ ':' :: cs, rfl, by decide⟩
    obtain ⟨c, r, hc, hmem⟩ := hahead
    have hfirm : Firm false (c :: r) := by
      simp only [List.mem_cons, List.not_mem_nil, or_false] at hmem
      rcases hmem with rfl | rfl | rfl <;>
        exact ⟨rfl, rfl, fun h => absurd h Bool.false_ne_true⟩
    have hd : d.rest = y ++ (c :: r) := by
      rw [hd, List.append_assoc]
      exact congrArg (y ++ ·) hc
    obtain ⟨ns, -, hgap⟩ := hy.leads id hfirm hd
      (show y.length < d.rest.length + 1 by rw [hd, List.length_append]; omega)
    exact ⟨c, r, hgap.rest_eq, hmem⟩

theorem member_of_word (hd : d.rest = c :: cs) (hword : Lexeme.word (c :: cs) ≠ 0)
    (hgap : ∃ c r, (d.wordToken .punctuation).gap.rest = c :: r ∧ c ∈ [':', '<', '-']) :
    member (fuel + 1) d =
      d.append (memberTail fuel d.cursor (propertyName fuel (fresh d.cursor))) := by
  obtain ⟨x, r, hgap, hx⟩ := hgap
  have hstar : d.beginsWith "*" = false := by
    have hc : c ≠ '*' := ne_of_word hword (by decide) (by decide)
    simp [beginsWith, Lexeme.startsWith, List.isPrefixOf, hd, hc.symm]
  have hplain : (startsProperty (d.wordToken .punctuation).gap.rest ||
      (d.wordToken .punctuation).gap.beginsWith "*") = false := by
    rw [beginsWith, hgap]
    simp only [List.mem_cons, List.not_mem_nil, or_false] at hx
    rcases hx with rfl | rfl | rfl <;> rfl
  have hproperty : startsProperty d.rest = true := by
    rw [hd]
    show (Lexeme.word (c :: cs) != 0 || _ || _) = true
    rw [bne_iff_ne.mpr hword]
    rfl
  rw [member, hstar]
  simp only [hplain, hproperty, Bool.and_false, Bool.false_eq_true, if_false, if_true]

/-- A word that is valid on its own is read wherever nothing of it stands behind. -/
theorem leads_wordAhead {w : List Char} (kind : Kind) (h : Lexeme.word w = w.length) (hrest : Loose rest)
    (hd : d.rest = w ++ rest) : Lexeme.word d.rest = w.length ∧
      Leads d (d.wordToken kind) [.leaf kind d.cursor.mark (String.ofList w)] rest := by
  have hlength : Lexeme.word d.rest = w.length := by
    rw [hd]
    exact (word_iff hrest.stops).mpr h
  refine ⟨hlength, ?_⟩
  rw [wordToken, hlength]
  exact leads_token kind hd

/-- The key of a member is read, and what comes after it. -/
structure ReadsName (fuel : Nat) (d : Draft source) (k : String) (rest : List Char) : Prop where
  member_eq : member (fuel + 2) d =
    d.append (memberTail (fuel + 1) d.cursor (propertyName (fuel + 1) (fresh d.cursor)))
  leads : ∃ key, Names key k ∧
    Leads (fresh d.cursor) (propertyName (fuel + 1) (fresh d.cursor)) [key] rest

theorem readsName_word {w : List Char} (hne : w ≠ []) (h : Lexeme.word w = w.length) (hrest : Loose rest)
    (hd : d.rest = w ++ rest) (hcolon : Tokenized stop false (.sign ':' :: ts) rest) :
    ReadsName fuel d (String.ofList w) rest := by
  have hfresh : (fresh d.cursor).rest = w ++ rest := hd
  obtain ⟨hword, hkey⟩ := leads_wordAhead .propertyName h hrest hfresh
  obtain ⟨-, htoken⟩ := leads_wordAhead .punctuation h hrest hd
  obtain ⟨c, tail, rfl⟩ := List.exists_cons_of_ne_nil hne
  have hhead : (fresh d.cursor).rest = c :: (tail ++ rest) := hd
  have hnonzero : Lexeme.word (c :: (tail ++ rest)) ≠ 0 := by
    rw [← hhead, hword]
    exact Nat.succ_ne_zero _
  have hsign : c ∉ ['\x22', '\x27', '[', '#'] := by
    simp only [List.mem_cons, List.not_mem_nil, or_false, not_or]
    exact ⟨ne_of_word hnonzero (by decide) (by decide), ne_of_word hnonzero (by decide) (by decide),
      ne_of_word hnonzero (by decide) (by decide), ne_of_word hnonzero (by decide) (by decide)⟩
  have hname : propertyName (fuel + 1) (fresh d.cursor) = (fresh d.cursor).wordToken .propertyName := by
    rw [propertyName_of_other hhead hsign, hhead, number_of_word hnonzero]
    exact (if_neg (by decide)).trans (if_pos (bne_iff_ne.mpr hnonzero))
  exact ⟨member_of_word hd hnonzero (head_of_colon (htoken.rest_eq.symm ▸ hcolon)),
    _, .name, hname ▸ hkey⟩

theorem readsName_number {w : List Char} {x : Json.Number} (hne : w ≠ [])
    (h : Lexeme.number w = w.length) (hx : number? false (String.ofList w) = some x) (hrest : Loose rest)
    (hd : d.rest = w ++ rest) : ReadsName fuel d (numericKey x) rest := by
  have hfresh : (fresh d.cursor).rest = w ++ rest := hd
  obtain ⟨hnumber, c, r, hc, hdigit⟩ := number_ahead hne h hrest hd
  obtain ⟨y, tail, rfl⟩ := List.exists_cons_of_ne_nil hne
  have hnonzero : Lexeme.number (c :: r) ≠ 0 := by
    rw [← hc, hnumber]
    exact Nat.succ_ne_zero _
  obtain rfl : c = y := (List.cons.inj (hc.symm.trans hd)).1
  exact ⟨member_of_number hc hdigit hnonzero, _, .number hx,
    leads_propertyName fuel hdigit (hd ▸ hnumber) hfresh⟩

theorem readsName_quotation {q : Quote} {s : String} (hq : q ≠ .backtick) (h : Quotation q cs s)
    (hd : d.rest = cs ++ rest) : ReadsName fuel d s rest := by
  obtain ⟨a, b, ns, ⟨hns, rfl⟩, hleads⟩ :=
    h.leads (d := fresh d.cursor) (Nat.lt_succ_self cs.length) hd
  obtain ⟨t, ps, rfl, -⟩ := h
  have hquote : (fresh d.cursor).rest = q.char :: (t ++ rest) := hd
  cases q with
  | backtick => exact absurd rfl hq
  | single =>
    have hread : propertyName (fuel + 1) (fresh d.cursor) = (fresh d.cursor).quoted '\x27' := by
      rw [propertyName]
      simp only [hquote, Quote.char]
    refine ⟨member_of_key hd (by decide) rfl (by simp [startsProperty, Quote.char]),
      .branch .string a b ns, .string hns, ?_⟩
    rw [hread]
    exact hleads
  | double =>
    refine ⟨member_of_quote hd, .branch .string a b ns, .string hns, ?_⟩
    rw [propertyName_of_quote hquote]
    exact hleads

/-- A token with a name is read as a key. -/
theorem Token.Names.reads (fuel : Nat) {k : String} (h : t.Names k) (ht : t.Valid) (hrest : t.Apart rest)
    (hd : d.rest = t.chars ++ rest) (hcolon : Tokenized stop false (.sign ':' :: ts) rest) :
    ReadsName fuel d k rest := by
  cases h with
  | word =>
    cases ht with
    | word hne hlength => exact readsName_word hne hlength hrest hd hcolon
  | number hx =>
    cases ht with
    | number hne hlength => exact readsName_number hne hlength hx hrest hd
  | text hq hquotation => exact readsName_quotation hq hquotation hd

/-! ### Phrases -/

/-- Wherever the tokens stand, reading finds the phrase, and what comes after it stands behind. -/
def Recognized (source : List Char) : Phrase → List Token → List Token → Prop
  | .value v, ts, us => ∀ {stop : List Char} {d : Draft source} {fuel : Nat}, Here stop d.rest ts →
      Ending us → Ends stop → 8 * d.rest.length ≤ fuel →
        ∃ n rest, (Denotes Kind.isLayout n v ∧ n.text ≠ ",") ∧
          Leads d (Draft.expression fuel d) [n] rest ∧ Tokenized stop false us rest ∧
            rest.length < d.rest.length
  | .items first vs, ts, us => ∀ {stop : List Char} {d : Draft source} {fuel : Nat},
      Tokenized stop false ts d.rest → Ends stop → 8 * d.rest.length ≤ fuel →
        ∃ ns rest, Items Kind.isLayout first ns vs ∧ Leads d (readOn .items first fuel d) ns rest ∧
          Tokenized stop false us rest ∧ rest.length < d.rest.length
  | .members first es, ts, us => ∀ {stop : List Char} {d : Draft source} {fuel : Nat},
      Tokenized stop false ts d.rest → Ends stop → 8 * d.rest.length ≤ fuel →
        ∃ ns rest, Pairs Kind.isLayout ns es ∧ Leads d (readOn .members first fuel d) ns rest ∧
          Tokenized stop false us rest ∧ rest.length < d.rest.length

theorem Expresses.exists_cons (h : Expresses (.value v) ts us) : ∃ t ts', ts = t :: ts' := by
  cases h <;> exact ⟨_, _, rfl⟩

/-- White space and comments are no items. -/
theorem Items.skip {first : Bool} (hms : ∀ n ∈ ms, Passed false n) (h : Items Kind.isLayout first ns vs) :
    Items Kind.isLayout first (ms ++ ns) vs := by
  induction ms with
  | nil => exact h
  | cons n ms ih =>
    rw [List.forall_mem_cons] at hms
    obtain ⟨k, m, s, rfl, rfl | ⟨hhtml, -⟩, -⟩ := hms.1
    · exact .comment (ih hms.2)
    · cases hhtml

theorem Pairs.skip (hms : ∀ n ∈ ms, Passed false n) (h : Pairs Kind.isLayout ns es) :
    Pairs Kind.isLayout (ms ++ ns) es := by
  induction ms with
  | nil => exact h
  | cons n ms ih =>
    rw [List.forall_mem_cons] at hms
    obtain ⟨k, m, s, rfl, rfl | ⟨hhtml, -⟩, -⟩ := hms.1
    · exact .comment (ih hms.2)
    · cases hhtml

/-- A member with a name, a colon and a value. -/
theorem leads_pair {k : String} (hkey : t.Names k) (hvalue : Expresses (.value v) ts us)
    (hread : Recognized source (.value v) ts us) (h : Here stop d.rest (t :: .sign ':' :: ts))
    (hus : Ending us) (hstop : Ends stop) (hfuel : 8 * d.rest.length ≤ fuel) :
    ∃ n rest, Pair Kind.isLayout n (k, v) ∧ Leads d (member fuel d) [n] rest ∧
      Tokenized stop false us rest ∧ rest.length < d.rest.length := by
  obtain ⟨r, hahead, hvalid, hapart, hts⟩ := h
  have hleaves : t.leaves = false := by cases hkey <;> rfl
  have hlength : d.rest.length = t.chars.length + r.length := by rw [hahead, List.length_append]
  have hpos := List.length_pos_of_ne_nil hvalid.ne_nil
  obtain ⟨j, rfl⟩ : ∃ j, fuel = j + 2 := ⟨fuel - 2, by omega⟩
  rw [hleaves] at hts
  obtain ⟨hmember, key, hname, hkeyLeads⟩ := hkey.reads j hvalid hapart hahead hts
  rw [hmember]
  generalize propertyName (j + 1) (fresh d.cursor) = e at hkeyLeads
  obtain ⟨before, hbefore, hspace, hle, cs, hcolon, -, -, hts⟩ := (hkeyLeads.rest_eq.symm ▸ hts).leads_space
  have hsign := leads_sign (d := e.space) hcolon
  have hrest : (e.space.sign 1).rest = cs := hsign.rest_eq
  obtain ⟨u, ts, rfl⟩ := hvalue.exists_cons
  obtain ⟨after, hafter, hspace', hle', hhere⟩ := (hrest.symm ▸ hts).leads_space
  rw [hcolon, hkeyLeads.rest_eq] at hle
  rw [hrest] at hle'
  have hshort : cs.length < r.length := hle
  have hbound : 8 * (e.space.sign 1).space.rest.length ≤ j := by omega
  obtain ⟨value, rest, ⟨hdenotes, -⟩, hleads, hus', hlt⟩ := hread hhere hus hstop hbound
  have hall := ((((hkeyLeads.trans hspace).trans hsign).trans hspace').trans hleads).close (d := d) .pair
  rw [memberTail_of_colon _ hcolon]
  have hnodes (n : Node source) : [key] ++ before ++ [n] ++ after ++ [value] =
      key :: before ++ n :: after ++ [value] := by simp
  rw [hnodes] at hall
  exact ⟨_, rest, .intro hname (fun n hn => (hbefore n hn).isLeafOf) (fun n hn => (hafter n hn).isLeafOf)
    hdenotes, hall, hus', by omega⟩

section Cases

variable {l : Listing} {kind : Kind} {first : Bool}

theorem recognized_single (h : t.Means v) : Recognized source (.value v) (t :: ts) ts := by
  intro stop d fuel ⟨rest, hd, hvalid, hapart, hts⟩ hus hstop hfuel
  have hleaves : t.leaves = false := by cases h <;> rfl
  rw [hleaves] at hts
  have hlength : d.rest.length = t.chars.length + rest.length := by rw [hd, List.length_append]
  have hpos := List.length_pos_of_ne_nil hvalid.ne_nil
  obtain ⟨k, rfl⟩ : ∃ k, fuel = k + 4 := ⟨fuel - 4, by omega⟩
  have hshort : t.chars.length < k := by omega
  obtain ⟨hbare, n, hn, hleads⟩ := h.leads (d := fresh d.cursor) hvalid hapart hd hshort
  exact ⟨n, rest, hn, leads_of_primary_of_ends ⟨hbare.sign, hbare.word⟩
    (fun e he => hts.ended_behind hus hstop e he) hleads, hts, by omega⟩

theorem recognized_signed {w : List Char} {x : Json.Number} (hc : c ∈ ['+', '-'])
    (hx : number? (c = '-') (String.ofList w) = some x) :
    Recognized source (.value (.number x)) (.sign c :: .number w :: ts) ts := by
  intro stop d fuel ⟨cs, hd, _, hapart, hts⟩ hus hstop hfuel
  have hsign : (c = '+' ∨ c = '-') ∧ (Token.sign c).leaves = true := by
    simp only [List.mem_cons, List.not_mem_nil, or_false] at hc
    rcases hc with rfl | rfl <;> decide
  rw [hsign.2] at hts
  have hlength : d.rest.length = cs.length + 1 := by rw [hd]; rfl
  obtain ⟨k, rfl⟩ : ∃ k, fuel = k + 5 := ⟨fuel - 5, by omega⟩
  exact leads_signedNumber hc hx hd (hapart hsign.1) hts hus hstop

theorem recognized_array (h : Recognized source (.items true vs) ts us) :
    Recognized source (.value (.array vs)) (.sign '[' :: ts) us := by
  intro stop d fuel ⟨cs, hd, _, _, hts⟩ hus hstop hfuel
  have hrest : ((fresh d.cursor).sign 1).rest = cs := congrArg (List.drop 1) hd
  have hlength : d.rest.length = ((fresh d.cursor).sign 1).rest.length + 1 := by rw [hd, hrest]; rfl
  obtain ⟨k, rfl⟩ : ∃ k, fuel = k + 7 := ⟨fuel - 7, by omega⟩
  have hbound : 8 * ((fresh d.cursor).sign 1).rest.length ≤ k := by omega
  obtain ⟨ns, rest, hitems, hleads, hus', hlt⟩ := h (hrest.symm ▸ hts) hstop hbound
  have hprimary : primary (k + 4) (fresh d.cursor) =
      (fresh d.cursor).enclose .array fun b => entries (k + 3) .items (b.sign 1) := by
    rw [primary]
    simp only [show (fresh d.cursor).rest = '[' :: cs from hd]
  obtain ⟨a, b, m, hleads⟩ := leads_bracket .items hd (bare_of_head hd (by decide) rfl)
    (fun e he => hus'.ended_behind hus hstop e he) hprimary hleads
  exact ⟨_, rest, ⟨.array (.bracket (by decide) hitems), by simp [text]⟩, hleads, hus', by omega⟩

theorem recognized_object {ms : Json.Members} (h : Recognized source (.members true es) ts us)
    (hms : Json.Members.Merged es ms) :
    Recognized source (.value (.object ms)) (.sign '\x7b' :: ts) us := by
  intro stop d fuel ⟨cs, hd, _, _, hts⟩ hus hstop hfuel
  have hrest : ((fresh d.cursor).sign 1).rest = cs := congrArg (List.drop 1) hd
  have hlength : d.rest.length = ((fresh d.cursor).sign 1).rest.length + 1 := by rw [hd, hrest]; rfl
  obtain ⟨k, rfl⟩ : ∃ k, fuel = k + 7 := ⟨fuel - 7, by omega⟩
  have hbound : 8 * ((fresh d.cursor).sign 1).rest.length ≤ k := by omega
  obtain ⟨ns, rest, hmembers, hleads, hus', hlt⟩ := h (hrest.symm ▸ hts) hstop hbound
  have hprimary : primary (k + 4) (fresh d.cursor) =
      (fresh d.cursor).enclose .object fun b => entries (k + 3) .members (b.sign 1) := by
    rw [primary]
    simp only [show (fresh d.cursor).rest = '\x7b' :: cs from hd]
  obtain ⟨a, b, m, hleads⟩ := leads_bracket .members hd (bare_of_head hd (by decide) rfl)
    (fun e he => hus'.ended_behind hus hstop e he) hprimary hleads
  exact ⟨_, rest, ⟨.object (.punctuation hmembers) hms, by simp [text]⟩, hleads, hus', by omega⟩

theorem recognized_noItem : Recognized source (.items first []) (.sign ']' :: us) us := by
  intro stop d fuel hts _ hfuel
  obtain ⟨ms, m, rest, hms, hleads, hus, hlt⟩ := leads_closing (l := .items) hts hfuel
  exact ⟨_, rest, .skip hms (.bracket (by decide) .nil), hleads, hus, hlt⟩

theorem recognized_nextItem (h : Recognized source (.items true vs) ts us) :
    Recognized source (.items false vs) (.sign ',' :: ts) us := by
  intro stop d fuel hts hstop hfuel
  obtain ⟨ms, m, k, e, hms, hleads, hts, hlt, hk, heq⟩ := exists_comma (l := .items) false hts hfuel
  obtain ⟨ns, rest, hitems, hread, hus, hlt'⟩ := h hts hstop hk
  rw [heq]
  have hall := hleads.trans hread
  rw [List.append_assoc] at hall
  exact ⟨_, rest, .skip hms (.comma hitems), hall, hus, hlt'.trans hlt⟩

theorem recognized_item (hvalue : Expresses (.value v) ts us)
    (hread : Recognized source (.value v) ts us) (hitems : Expresses (.items false vs) us ws)
    (h : Recognized source (.items false vs) us ws) :
    Recognized source (.items true (v :: vs)) ts ws := by
  intro stop d fuel hts hstop hfuel
  obtain ⟨t, ts, rfl⟩ := hvalue.exists_cons
  obtain ⟨ms, s, hms, hleads, hhere, hle, heq⟩ := exists_entry (l := .items) fuel hts hvalue.opens
  have hbound : 8 * s.rest.length ≤ fuel + 1 := by omega
  obtain ⟨n, rest, ⟨hn, -⟩, hentry, hus, hlt⟩ := hread hhere hitems.ending_of_items hstop hbound
  rw [← hentry.rest_eq] at hus hlt
  have hbehind : 8 * (Draft.expression (fuel + 1) s).rest.length ≤ fuel + 2 := by omega
  obtain ⟨ns, rest', hafter, hgoes, hws, hlt'⟩ := h hus hstop hbehind
  rw [heq]
  exact ⟨_, rest', .skip hms (.item hn hafter), hleads.trans (hentry.trans hgoes), hws, by omega⟩

theorem recognized_noMember : Recognized source (.members first []) (.sign '\x7d' :: us) us := by
  intro stop d fuel hts _ hfuel
  obtain ⟨ms, m, rest, hms, hleads, hus, hlt⟩ := leads_closing (l := .members) hts hfuel
  exact ⟨_, rest, .skip hms (.punctuation .nil), hleads, hus, hlt⟩

theorem recognized_member {k : String} (hkey : t.Names k) (hvalue : Expresses (.value v) ts us)
    (hread : Recognized source (.value v) ts us) (hmembers : Expresses (.members false es) us ws)
    (h : Recognized source (.members false es) us ws) :
    Recognized source (.members true ((k, v) :: es)) (t :: .sign ':' :: ts) ws := by
  intro stop d fuel hts hstop hfuel
  obtain ⟨ms, s, hms, hleads, hhere, hle, heq⟩ := exists_entry (l := .members) fuel hts hkey.opens
  have hbound : 8 * s.rest.length ≤ fuel + 1 := by omega
  obtain ⟨n, rest, hn, hentry, hus, hlt⟩ :=
    leads_pair hkey hvalue hread hhere hmembers.ending_of_members hstop hbound
  rw [← hentry.rest_eq] at hus hlt
  have hbehind : 8 * (member (fuel + 1) s).rest.length ≤ fuel + 2 := by omega
  obtain ⟨ns, rest', hafter, hgoes, hws, hlt'⟩ := h hus hstop hbehind
  rw [heq]
  exact ⟨_, rest', .skip hms (.pair hn hafter), hleads.trans (hentry.trans hgoes), hws, by omega⟩

theorem recognized_nextMember (h : Recognized source (.members true es) ts us) :
    Recognized source (.members first es) (.sign ',' :: ts) us := by
  intro stop d fuel hts hstop hfuel
  obtain ⟨ms, m, k, e, hms, hleads, hts, hlt, hk, heq⟩ := exists_comma (l := .members) first hts hfuel
  obtain ⟨ns, rest, hmembers, hread, hus, hlt'⟩ := h hts hstop hk
  rw [heq]
  have hall := hleads.trans hread
  rw [List.append_assoc] at hall
  exact ⟨_, rest, .skip hms (.punctuation hmembers), hall, hus, hlt'.trans hlt⟩

end Cases

theorem recognized (h : Expresses p ts us) : Recognized source p ts us := by
  induction h with
  | single h => exact recognized_single h
  | signed hc hx => exact recognized_signed hc hx
  | array _ ih => exact recognized_array ih
  | object _ hms ih => exact recognized_object ih hms
  | noItem => exact recognized_noItem
  | item hvalue hitems ihValue ihItems => exact recognized_item hvalue ihValue hitems ihItems
  | nextItem _ ih => exact recognized_nextItem ih
  | noMember => exact recognized_noMember
  | member hkey hvalue hmembers ihValue ihMembers =>
    exact recognized_member hkey hvalue ihValue hmembers ihMembers
  | nextMember _ ih => exact recognized_nextMember ih

end Workyard.Options
