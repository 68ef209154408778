import Mathlib.Logic.Relation
import Workyard.Proofs.Options.Completeness
import Workyard.Proofs.Options.LineFeeds
import Workyard.Proofs.Options.Soundness

/-!
# White space, comments and trailing commas

A text is a literal when its tokens express a value, and there is only one way to take a text apart
into tokens. So what stands between the tokens has no bearing on the value, and neither has a comma
before a closing bracket where an item or a member ends.
-/

namespace Workyard.Options

set_option autoImplicit false

open Json (Phrase)
open Script Script.Node Script.Draft

variable {source stop : List Char} {d e : Draft source} {n m : Node source} {ns ms : List (Node source)}
  {cs rest : List Char} {html : Bool} {v : Json} {t u : Token} {ts us : List Token} {c : Char}

/-! ### One way to take a text apart -/

namespace Token

def numberLength : Token → Nat
  | number cs => cs.length
  | _ => 0

def wordLength : Token → Nat
  | word cs => cs.length
  | _ => 0

/-- What a text begins with tells of which kind its first token is. -/
theorem Valid.lengths (ht : t.Valid) (hrest : t.Apart rest) :
    Lexeme.number (t.chars ++ rest) = t.numberLength ∧ Lexeme.word (t.chars ++ rest) = t.wordLength := by
  cases ht with
  | @sign c hc =>
    simp only [List.mem_cons, List.not_mem_nil, or_false] at hc
    rcases hc with rfl | rfl | rfl | rfl | rfl | rfl | rfl | rfl <;> exact ⟨rfl, rfl⟩
  | @word w hne h =>
    have hword := (word_iff hrest.stops).mpr h
    obtain ⟨c, w, rfl⟩ := List.exists_cons_of_ne_nil hne
    have hnonzero : Lexeme.word (c :: (w ++ rest)) ≠ 0 := by
      rw [← List.cons_append, hword]
      exact Nat.succ_ne_zero _
    exact ⟨number_of_word hnonzero, hword⟩
  | @number w hne h =>
    have hnumber := (number_iff hrest.closes).mpr h
    obtain ⟨c, w, rfl⟩ := List.exists_cons_of_ne_nil hne
    have hnonzero : Lexeme.number (c :: (w ++ rest)) ≠ 0 := by
      rw [← List.cons_append, hnumber]
      exact Nat.succ_ne_zero _
    exact ⟨hnumber, word_of_number (head_of_number hnonzero) _⟩
  | @quoted q cs s h =>
    obtain ⟨t, ps, rfl, -⟩ := h
    cases q <;> exact ⟨rfl, rfl⟩

/-- A quoted text ends at the first quote that is not escaped. -/
theorem quotation_unique {q : Quote} {cs cs' rest' : List Char} {s s' : String} (h : Quotation q cs s)
    (h' : Quotation q cs' s') (heq : cs ++ rest = cs' ++ rest') : cs = cs' := by
  have hd : (fresh (Text.Cursor.start (cs ++ rest))).rest = cs ++ rest := rfl
  obtain ⟨a, b, ns, -, hleads⟩ := h.leads (show cs.length < cs.length + cs'.length + 1 by omega) hd
  obtain ⟨a', b', ns', -, hleads'⟩ :=
    h'.leads (show cs'.length < cs.length + cs'.length + 1 by omega) (hd.trans heq)
  obtain rfl : rest = rest' := hleads.rest_eq.symm.trans hleads'.rest_eq
  exact List.append_cancel_right heq

/-- The first token of a text. -/
theorem Valid.unique {rest' : List Char} (ht : t.Valid) (hrest : t.Apart rest) (hu : u.Valid)
    (hrest' : u.Apart rest') (h : t.chars ++ rest = u.chars ++ rest') : t = u := by
  obtain ⟨hnumber, hword⟩ := ht.lengths hrest
  obtain ⟨hnumber', hword'⟩ := hu.lengths hrest'
  rw [h] at hnumber hword
  have hnumber := hnumber.symm.trans hnumber'
  have hword := hword.symm.trans hword'
  have hquote {c : Char} (hc : c ∈ [',', ':', '+', '-', '[', ']', '\x7b', '\x7d']) (q : Quote) :
      c ≠ q.char := by
    rintro rfl
    cases q <;> exact absurd hc (by decide)
  cases ht with
  | word hne =>
    cases hu with
    | word => exact congrArg Token.word (List.append_inj_left h hword)
    | _ => exact absurd (List.length_eq_zero_iff.mp hword) hne
  | number hne =>
    cases hu with
    | number => exact congrArg Token.number (List.append_inj_left h hnumber)
    | _ => exact absurd (List.length_eq_zero_iff.mp hnumber) hne
  | sign hc =>
    cases hu with
    | sign => rw [(List.cons.inj h).1]
    | word hne => exact absurd (List.length_eq_zero_iff.mp hword.symm) hne
    | number hne => exact absurd (List.length_eq_zero_iff.mp hnumber.symm) hne
    | quoted hquotation =>
      obtain ⟨w, ps, rfl, -⟩ := hquotation
      exact absurd (List.cons.inj h).1 (hquote hc _)
  | @quoted q cs s hquotation =>
    cases hu with
    | word hne => exact absurd (List.length_eq_zero_iff.mp hword.symm) hne
    | number hne => exact absurd (List.length_eq_zero_iff.mp hnumber.symm) hne
    | sign hc =>
      obtain ⟨w, ps, rfl, -⟩ := hquotation
      exact absurd (List.cons.inj h).1.symm (hquote hc _)
    | @quoted q' cs' s' hquotation' =>
      obtain rfl : q = q' := by
        obtain ⟨w, ps, rfl, -⟩ := hquotation
        obtain ⟨w', ps', rfl, -⟩ := hquotation'
        have hchar : q.char = q'.char := (List.cons.inj h).1
        cases q <;> cases q' <;> first | rfl | exact absurd hchar (by decide)
      rw [quotation_unique hquotation hquotation' h]

end Token

namespace Tokenized

theorem rest_space (h : Tokenized [] html [] d.rest) : d.space.rest = [] := by
  have hfirm : Firm true [] := ⟨rfl, rfl, fun _ => rfl⟩
  generalize hd : d.rest = r at h
  cases h with
  | @nil _ x hx =>
    obtain ⟨ns, -, hleads⟩ := hx.leads (fun _ => rfl) hfirm hd
      (show x.length < d.rest.length + 1 by rw [hd, List.length_append]; omega)
    exact hleads.rest_eq

theorem rest_space_ne_nil (h : Tokenized [] html (t :: ts) d.rest) : d.space.rest ≠ [] := by
  obtain ⟨-, -, -, -, r, hahead, hvalid, -⟩ := h.leads_space
  rw [hahead]
  exact List.append_ne_nil_of_left_ne_nil hvalid.ne_nil r

/-- There is one way to take a text apart. -/
theorem unique {html' : Bool} (h : Tokenized [] html ts cs) (h' : Tokenized [] html' us cs) : ts = us := by
  have hd : (fresh (Text.Cursor.start cs)).rest = cs := rfl
  induction ts generalizing html html' us cs with
  | nil =>
    cases us with
    | nil => rfl
    | cons u us => exact absurd (rest_space (hd.symm ▸ h)) (rest_space_ne_nil (hd.symm ▸ h'))
  | cons t ts ih =>
    cases us with
    | nil => exact absurd (rest_space (hd.symm ▸ h')) (rest_space_ne_nil (hd.symm ▸ h))
    | cons u us =>
      obtain ⟨-, -, -, -, r, hahead, ht, hr, hts⟩ := leads_space (hd.symm ▸ h)
      obtain ⟨-, -, -, -, r', hahead', hu, hr', hus⟩ := leads_space (hd.symm ▸ h')
      have heq := hahead.symm.trans hahead'
      obtain rfl := ht.unique hr hu hr' heq
      obtain rfl := List.append_cancel_left heq
      rw [ih hts hus rfl]

end Tokenized

/-! ### The value in parentheses -/

/-- The tokens of the text express the value. -/
def Expressed (v : Json) (cs : List Char) : Prop :=
  ∃ ts, Tokenized [] false ts cs ∧ Expresses (.value v) ts []

theorem isItem_of_denotes (h : Denotes Kind.isLayout n v) : isItem n = true ∧ n.kind ≠ .spread := by
  cases h with
  | @text k _ _ _ hk => cases k <;> first | exact absurd hk Bool.false_ne_true | exact ⟨rfl, by rintro ⟨⟩⟩
  | _ => exact ⟨rfl, by rintro ⟨⟩⟩

/-- White space and comments stand for nothing. -/
theorem significant_of_passed (h : ∀ n ∈ ns, Passed false n) :
    ns.filter (·.kind.isSignificant) = [] ∧ ns.filter isItem = [] ∧ anyFault ns = false := by
  have hnone : ∀ n ∈ ns, n.kind.isSignificant = false := by
    intro n hn
    obtain ⟨k, m, s, rfl, rfl | ⟨hhtml, -⟩, -⟩ := h n hn
    · rfl
    · cases hhtml
  refine ⟨?_, ?_, anyFault_of_leaves isFault_of_isLayout fun n hn => (h n hn).isLeafOf⟩
  · exact List.filter_eq_nil_iff.mpr fun n hn => by rw [hnone n hn]; exact Bool.false_ne_true
  · refine List.filter_eq_nil_iff.mpr fun n hn => ?_
    rw [isItem, hnone n hn]
    exact Bool.false_ne_true

/-- A value with white space and comments around it, between parentheses. -/
theorem sole_of_nodes {p q : Text.Mark source} (hrest : e.rest = [])
    (hnodes : e.nodes.reverse =
      .leaf .punctuation p "(" :: (ms ++ (n :: (ns ++ [.leaf .punctuation q ")"]))))
    (hms : ∀ n ∈ ms, Passed false n) (hns : ∀ n ∈ ns, Passed false n) (hn : Denotes Kind.isLayout n v)
    (htext : n.text ≠ ",") : Sole e n := by
  obtain ⟨hbefore, hitemsBefore, hsoundBefore⟩ := significant_of_passed hms
  obtain ⟨hafter, hitemsAfter, hsoundAfter⟩ := significant_of_passed hns
  obtain ⟨hitem, hspread⟩ := isItem_of_denotes hn
  have hsignificant : n.kind.isSignificant = true := (Bool.and_eq_true_iff.mp hitem).1
  have hsign (m : Text.Mark source) (s : String) :
      isItem (.leaf .punctuation m s) = false ∧ (Node.leaf .punctuation m s).kind.isSignificant = false :=
    ⟨rfl, rfl⟩
  refine ⟨hrest, ?_, ?_, ?_, hspread, fun x hx => ?_⟩
  · rw [← anyFault_reverse, hnodes]
    simp only [anyFault, anyFault_append, hsoundBefore, hsoundAfter, hasFault_of_denotes hn]
    rfl
  · rw [hnodes]
    simp [List.filter_append, hitemsBefore, hitemsAfter, hitem, hsign]
  · rw [hnodes]
    simp [List.filter_append, hbefore, hafter, hsignificant, hsign]
  · have hpassed {ns : List (Node source)} (hns : ∀ n ∈ ns, Passed false n) (hx : x ∈ ns) :
        x.text ≠ "," := by
      obtain ⟨k, m, s, rfl, -, hs⟩ := hns x hx
      exact hs
    rw [← List.mem_reverse, hnodes] at hx
    simp only [List.mem_cons, List.mem_append, List.not_mem_nil, or_false] at hx
    rcases hx with rfl | hx | rfl | hx | rfl
    · simp [text]
    · exact hpassed hms hx
    · exact htext
    · exact hpassed hns hx
    · simp [text]

/-- What is read between the parentheses is the value with white space and comments around it. -/
theorem Sole.ordinary (h : Sole e m) (hshaped : ∀ n ∈ e.nodes, n.Shaped) (hm : m.kind.isPlain = true) :
    Ordinary e.nodes := by
  intro n hn
  by_cases hitem : Options.isItem n = true
  · have hmem := List.mem_filter.mpr ⟨List.mem_reverse.mpr hn, hitem⟩
    rw [h.items, List.mem_singleton] at hmem
    rwa [hmem]
  · cases hshaped n hn with
    | @leaf k m s hfault => cases k <;> first | rfl | exact absurd rfl hitem | cases hfault
    | @hidden k _ _ _ hk => cases k <;> first | exact absurd hk Bool.false_ne_true | exact absurd rfl hitem
    | @listing k _ _ _ hk => cases k <;> first | exact absurd hk Bool.false_ne_true | exact absurd rfl hitem
    | @quoted k _ _ _ hk => cases k <;> first | exact absurd hk Bool.false_ne_true | exact absurd rfl hitem
    | pair => exact absurd rfl hitem
    | unary => exact absurd rfl hitem

/-- A value is read up to the closing parenthesis. -/
theorem leads_enclosed {fuel : Nat} (hts : Tokenized [')'] false ts d.rest)
    (hv : Expresses (.value v) ts []) (hfuel : 8 * d.rest.length ≤ fuel) :
    ∃ ms n ns p, (∀ n ∈ ms, Passed false n) ∧ (∀ n ∈ ns, Passed false n) ∧
      (Denotes Kind.isLayout n v ∧ n.text ≠ ",") ∧
        Leads d (readOn .values true fuel d) (ms ++ (n :: (ns ++ [.leaf .punctuation p ")"]))) [] := by
  obtain ⟨t, ts, rfl⟩ := hv.exists_cons
  obtain ⟨ms, s, hms, hbefore, hhere, hle, heq⟩ := exists_entry (l := .values) fuel hts hv.opens
  have hbound : 8 * s.rest.length ≤ fuel + 1 := by omega
  obtain ⟨n, rest, hn, hentry, hrest, -⟩ :=
    recognized hv hhere ending_nil (.parenthesis []) hbound
  have hreader : entryReader .values (fuel + 1) s = Draft.expression (fuel + 1) s := rfl
  rw [heq, hreader]
  generalize Draft.expression (fuel + 1) s = e at hentry
  rw [← hentry.rest_eq] at hrest
  obtain ⟨ns, hns, hafter⟩ := hrest.leads_stop ⟨rfl, rfl, fun h => absurd h Bool.false_ne_true⟩
  have hclose : readOn .values false (fuel + 2) e = e.gap.sign 1 :=
    entriesAfter_of_closing (fuel + 1) .values hafter.rest_eq
  rw [hclose]
  have hall := hbefore.trans (hentry.trans (hafter.trans (leads_sign hafter.rest_eq)))
  exact ⟨ms, n, ns, _, hms, hns, hn, hall⟩

theorem exists_sole (hsource : source = '(' :: (cs ++ [')'])) (hts : Tokenized [] false ts cs)
    (hv : Expresses (.value v) ts []) (hd : d.rest = source) :
    ∃ m, Denotes Kind.isLayout m v ∧ Sole (bracketed d) m := by
  have hsign := leads_sign (d := fresh d.cursor) (hd.trans hsource)
  obtain ⟨a, ha, hfront⟩ := hts.exists_front
  rw [List.append_nil] at ha
  subst ha
  have hts : Tokenized [')'] false ts (sign 1 (fresh d.cursor)).rest := by
    rw [hsign.rest_eq]
    exact hfront [')'] (.inl ⟨loose_cons (.inr (by decide)) [], by rintro c ⟨⟩; decide⟩)
  have hlength : (sign 1 (fresh d.cursor)).rest.length ≤ source.length := by
    rw [hsign.rest_eq, hsource]
    exact Nat.le_succ _
  have hbound : 8 * (sign 1 (fresh d.cursor)).rest.length ≤ 16 * source.length + 53 := by omega
  obtain ⟨ms, n, ns, p, hms, hns, ⟨hn, htext⟩, hleads⟩ := leads_enclosed hts hv hbound
  have hall := hsign.trans hleads
  have hread : bracketed d = readOn .values true (16 * source.length + 53) (sign 1 (fresh d.cursor)) := by
    rw [bracketed, readOn]
  rw [← hread] at hall
  have hnodes : (bracketed d).nodes.reverse = .leaf .punctuation d.cursor.mark "(" ::
      (ms ++ (n :: (ns ++ [.leaf .punctuation p ")"]))) := by
    rw [hall.nodes_eq, List.reverse_append, List.reverse_reverse]
    rfl
  exact ⟨n, hn, sole_of_nodes hall.rest_eq hnodes hms hns hn htext⟩

theorem not_isItem_of_passed (h : Passed true n) : isItem n = false := by
  obtain ⟨k, m, s, rfl, rfl | ⟨-, rfl⟩, -⟩ := h <;> rfl

/-- The first entry in parentheses is the value, with no comment in the manner of HTML before it. -/
theorem eq_of_first (hms : ∀ n ∈ ms, Passed true n) (hn : n.kind.isSignificant = true)
    (hm : isItem m = true)
    (hfirst : ((ms ++ n :: ns).filter (·.kind.isSignificant)).head? = some m) :
    (∀ n ∈ ms, n.kind ≠ .htmlComment) ∧ n = m := by
  induction ms with
  | nil =>
    simp only [List.nil_append, List.filter_cons, hn, if_true, List.head?_cons, Option.some.injEq] at hfirst
    exact ⟨List.forall_mem_nil _, hfirst⟩
  | cons x ms ih =>
    rw [List.forall_mem_cons] at hms
    obtain ⟨k, p, s, rfl, rfl | ⟨-, rfl⟩, -⟩ := hms.1
    · obtain ⟨hhtml, heq⟩ := ih hms.2 hfirst
      exact ⟨List.forall_mem_cons.mpr ⟨nofun, hhtml⟩, heq⟩
    · obtain rfl := Option.some.inj hfirst
      cases hm

/-- No comma stands between the parentheses. -/
theorem Sole.not_mem (h : Sole e m) (q : Text.Mark source) : leaf .punctuation q "," ∉ e.nodes.reverse :=
  fun hmem => h.comma _ (List.mem_reverse.mp hmem) rfl

/-- Between the parentheses there is an entry. -/
theorem Sole.not_goesOn {p : Text.Mark source} {s : String} {k : Nat} (h : Sole e m)
    (hnodes : e.nodes.reverse = .leaf .punctuation p s :: (ms ++ ns)) (hms : ∀ n ∈ ms, Passed true n) :
    ¬ GoesOn .values k d ns rest := by
  intro hgoes
  cases hgoes with
  | close =>
    have hmem : m ∈ e.nodes.reverse.filter Options.isItem := by
      rw [h.items]
      exact List.mem_singleton_self m
    obtain ⟨hmem, hitem⟩ := List.mem_filter.mp hmem
    rw [hnodes] at hmem
    simp only [List.mem_cons, List.mem_append, List.not_mem_nil, or_false] at hmem
    rcases hmem with rfl | hmem | rfl
    · cases hitem
    · rw [not_isItem_of_passed (hms m hmem)] at hitem
      cases hitem
    · cases hitem
  | @comma q es =>
    refine h.not_mem q ?_
    rw [hnodes]
    simp

/-- What was read behind the opening parenthesis. -/
theorem Sole.exists_leads (h : Sole (bracketed d) m) : ∃ ns,
    Leads (sign 1 (fresh d.cursor)) (bracketed d) ns [] ∧
      (bracketed d).nodes.reverse = .leaf .punctuation d.cursor.mark (d.cursor.peek 1) :: ns ∧
        anyFault ns = false := by
  obtain ⟨ns, hns⟩ := Options.exists_leads
    (adds_entries_all .values (16 * source.length + 56) (sign 1 (fresh d.cursor)))
  have hread : entries (16 * source.length + 56) .values (sign 1 (fresh d.cursor)) = bracketed d := rfl
  rw [hread, h.rest] at hns
  have hnodes : (bracketed d).nodes.reverse =
      .leaf .punctuation d.cursor.mark (d.cursor.peek 1) :: ns := by
    rw [hns.nodes_eq, List.reverse_append, List.reverse_reverse]
    rfl
  have hsound := h.sound
  rw [← anyFault_reverse, hnodes, anyFault, Bool.or_eq_false_iff] at hsound
  exact ⟨ns, hns, hnodes, hsound.2⟩

/-- Behind the value the parentheses end. -/
theorem tokenized_behind {k : Nat} (ho : Ordinary (entriesAfter k .values e).nodes)
    (h : Leads e (entriesAfter k .values e) ns []) (hcomma : ∀ q, leaf .punctuation q "," ∉ ns) :
    Tokenized [')'] false [] e.rest := by
  obtain ⟨_, y, ms, ns, -, rfl, hy, hspacing, -, hgoes⟩ := goesOn_of_entriesAfter ho h
  cases hgoes with
  | close hs =>
    rw [hy, hs]
    exact .nil hspacing
  | @comma q es hs => exact absurd (by simp) (hcomma q)

theorem tokens_of_sole (hsource : source = '(' :: (cs ++ [')'])) (h : Sole (bracketed (front source)) m)
    (hv : Denotes Kind.isLayout m v) : Expressed v cs := by
  have hfront : (sign 1 (fresh (front source).cursor)).rest = cs ++ [')'] := rest_behind (rest_front hsource)
  obtain ⟨ns, hns, hnodes, hsound⟩ := h.exists_leads
  have ho : Ordinary (bracketed (front source)).nodes := h.ordinary (shaped_bracketed h.sound) hv.isPlain
  obtain ⟨k, x, ms, ns, -, rfl, hx, hspacing, hms, hgoes | ⟨j, n, es, -, rfl, hentry⟩⟩ :=
    goesOn_of_entries ho hns hsound
  · exact absurd hgoes (h.not_goesOn hnodes hms)
  -- The value comes first, with nothing but white space and comments before it.
  have hfirst := h.first
  rw [hnodes] at hfirst
  obtain ⟨hhtml, rfl⟩ := eq_of_first hms hentry.significant h.isItem hfirst
  have hcomma (q : Text.Mark source) : leaf .punctuation q "," ∉ es := by
    intro hmem
    refine h.not_mem q ?_
    rw [hnodes]
    simp [hmem]
  have hbehind := tokenized_behind hentry.ordinary_after hentry.after hcomma
  obtain ⟨ts, hts, hexpresses⟩ :=
    ((sound source j).value hentry.ordinary hentry.entry hv hentry.loose).tokens hbehind
  have hts := hts.prepend (hspacing false fun n hn hkind => absurd hkind (hhtml n hn))
  rw [← hx, hfront] at hts
  obtain ⟨a, ha, hstop⟩ := hts.exists_front
  obtain rfl := List.append_cancel_right ha
  exact ⟨ts, List.append_nil cs ▸ hstop [] (.inl joins_nil), hexpresses⟩

/-- A text in parentheses has a value if its tokens express the value. -/
theorem enclosedValue_eq_ok_iff (hsource : source = '(' :: (cs ++ [')'])) :
    enclosedValue (parse source) = .ok v ↔ Expressed v cs := by
  constructor
  · intro h
    obtain ⟨m, hvalue, -, hsole⟩ := exists_sole_of_enclosedValue hsource h
    have hmem := (List.mem_filter.mp (List.mem_of_mem_head? hsole.first)).1
    have hshaped := shaped_bracketed hsole.sound m (List.mem_reverse.mp hmem)
    exact tokens_of_sole hsource hsole ((valueOf_eq_ok_iff hshaped).mp hvalue)
  · rintro ⟨ts, hts, hv⟩
    obtain ⟨m, hm, heq⟩ := enclosedValue_of_sole (P := fun m => Denotes Kind.isLayout m v) hsource
      fun d hd => exists_sole hsource hts hv hd
    rw [heq]
    exact valueOf_of_denotes hm

/-! ### Texts -/

/-- The text up to the parenthesis that is put behind it. A line feed comes first, which ends a comment
at the end of the text. -/
def lineOf (text : String) : List Char :=
  text.toList ++ ['\n']

/-- What is read as a value is what the tokens of the text express. -/
theorem parseLiteral_eq_ok_iff {text : String} : parseLiteral text = .ok v ↔ Expressed v (lineOf text) := by
  have hsource : enclosed text = '(' :: (lineOf text ++ [')']) := by
    rw [lineOf, List.append_assoc]
    rfl
  rw [parseLiteral, mapError_eq_ok_iff, enclosedValue_eq_ok_iff hsource]

/-! ### Changes to the layout -/

/-- A place in a text, with the tokens before it and those after it. -/
structure Splits (ts : List Token) (a : List Char) (us : List Token) (b : List Char) : Prop where
  front : Tokenized b false ts (a ++ b)
  back : Tokenized [] (leaving false ts) us b

/-- A text is laid out in another way: white space and comments are put in before, between or after its
tokens, or a comma is put in between the end of a value and a closing bracket. -/
inductive Relaid : List Char → List Char → Prop
  | spacing {a b x ts us} (h : Splits ts a us b) (hx : Spacing false x) : Relaid (a ++ b) (a ++ (x ++ b))
  | comma {a b t c ts us} (h : Splits (ts ++ [t]) a (.sign c :: us) b) (ht : t.ends = true)
      (hc : c ∈ [']', '\x7d']) : Relaid (a ++ b) (a ++ ',' :: b)

namespace Trailing

theorem refl (ended : Bool) (ts : List Token) : Trailing ended ts ts := by
  induction ts generalizing ended with
  | nil => exact .nil
  | cons t ts ih => exact .cons (ih _)

theorem append {ended : Bool} {us us' : List Token} (h : Trailing t.ends us us') (ts : List Token) :
    Trailing ended (ts ++ t :: us) (ts ++ t :: us') := by
  induction ts generalizing ended with
  | nil => exact .cons h
  | cons u ts ih => exact .cons ih

/-- Behind the last token no comma is left. -/
theorem eq_nil {ended : Bool} (h : Trailing ended [] us) : us = [] := by
  cases h
  rfl

end Trailing

namespace Tokenized

/-- Wherever the tokens are parted, so is the text. -/
theorem exists_splits (h : Tokenized stop html (ts ++ us) cs) :
    ∃ a b, cs = a ++ b ∧ Tokenized b html ts (a ++ b) ∧ Tokenized stop (leaving html ts) us b := by
  induction ts generalizing html cs with
  | nil => exact ⟨[], cs, rfl, .nil .nil, h⟩
  | cons t ts ih =>
    cases h with
    | @cons _ _ x _ cs hx ht hcs h =>
      obtain ⟨a, b, rfl, hfront, hback⟩ := ih h
      refine ⟨x ++ (t.chars ++ a), b, by simp, ?_, hback⟩
      rw [List.append_assoc, List.append_assoc]
      exact .cons hx ht hcs hfront

/-- Texts with the same tokens, but for trailing commas, express the same. -/
theorem expressed_iff {cs' : List Char} (h : Tokenized [] false ts cs) (h' : Tokenized [] false us cs')
    (hts : Trailing false ts us) : Expressed v cs ↔ Expressed v cs' := by
  constructor
  · rintro ⟨ts', hts', hv⟩
    obtain rfl := h.unique hts'
    obtain ⟨ws, hv, hws⟩ := hv.trailing hts
    obtain rfl := hws.eq_nil
    exact ⟨us, h', hv⟩
  · rintro ⟨us', hus', hv⟩
    obtain rfl := h'.unique hus'
    obtain ⟨ws, hv, hws⟩ := hv.trailing hts.symm
    obtain rfl := hws.eq_nil
    exact ⟨ts, h, hv⟩

end Tokenized

theorem leaving_concat (html : Bool) (ts : List Token) (t : Token) : leaving html (ts ++ [t]) = t.leaves := by
  induction ts generalizing html with
  | nil => rfl
  | cons u ts ih => exact ih _

theorem leaves_of_ends (ht : t.ends = true) : t.leaves = false := by
  cases t with
  | sign c =>
    simp only [Token.ends, Bool.or_eq_true, beq_iff_eq] at ht
    rcases ht with rfl | rfl <;> rfl
  | _ => rfl

/-- A comma is put in behind the end of a value. -/
theorem Splits.comma {a b : List Char} (h : Splits (ts ++ [t]) a us b) (ht : t.ends = true) :
    Tokenized [] false (ts ++ [t] ++ .sign ',' :: us) (a ++ ',' :: b) := by
  obtain ⟨a', ha, hfront⟩ := h.front.exists_front
  obtain rfl := List.append_cancel_right ha
  have hback := h.back
  rw [leaving_concat, leaves_of_ends ht] at hback
  have hcomma : Tokenized [] t.leaves (.sign ',' :: us) (',' :: b) :=
    .cons .nil (.sign (by decide)) (fun hsign => absurd hsign (by decide)) hback
  have hjoins : Joins (',' :: b) := ⟨loose_cons (.inr (by decide)) b, by rintro c ⟨⟩; decide⟩
  exact (hfront _ (.inl hjoins)).append ((leaving_concat false ts t).symm ▸ hcomma)

theorem Relaid.expressed_iff {cs' : List Char} (h : Relaid cs cs') : Expressed v cs ↔ Expressed v cs' := by
  cases h with
  | @spacing a b x ts us h hx =>
    exact (h.front.append h.back).expressed_iff (h.front.insert h.back hx) (.refl _ _)
  | @comma a b t c ts us h ht hc =>
    refine (h.front.append h.back).expressed_iff (h.comma ht) ?_
    rw [List.append_assoc, List.append_assoc]
    refine .append ?_ ts
    rw [ht]
    exact .add hc (.refl _ _)

theorem expressed_iff_of_relaid {cs' : List Char} (h : Relation.EqvGen Relaid cs cs') :
    Expressed v cs ↔ Expressed v cs' := by
  induction h with
  | rel _ _ h => exact h.expressed_iff
  | refl => exact Iff.rfl
  | symm _ _ _ ih => exact ih.symm
  | trans _ _ _ _ _ ih ih' => exact ih.trans ih'

/-- Layout has no meaning: however the text of a value is laid out anew, at any places between its
tokens and with any number of changes in either direction, the value stays the same. -/
theorem parseLiteral_relaid :
    (∀ {text : String} {v : Json}, parseLiteral text = .ok v →
      ∃ ts, Tokenized [] false ts (lineOf text) ∧ Expresses (.value v) ts [] ∧
        ∀ front back, ts = front ++ back → ∃ a b, lineOf text = a ++ b ∧ Splits front a back b) ∧
    ∀ {text text' : String} {v : Json}, Relation.EqvGen Relaid (lineOf text) (lineOf text') →
      (parseLiteral text = .ok v ↔ parseLiteral text' = .ok v) := by
  constructor
  · intro text v h
    obtain ⟨ts, hts, hv⟩ := parseLiteral_eq_ok_iff.mp h
    refine ⟨ts, hts, hv, fun front back hparts => ?_⟩
    obtain ⟨a, b, hline, hfront, hback⟩ := (hparts ▸ hts).exists_splits
    exact ⟨a, b, hline, hfront, hback⟩
  · intro text text' v h
    rw [parseLiteral_eq_ok_iff, parseLiteral_eq_ok_iff]
    exact expressed_iff_of_relaid h

set_option maxRecDepth 100000 in
/-- A comment between a sign and its number, and a comma behind the last item. -/
theorem parseLiteral_relaid_signed : Relation.EqvGen Relaid (lineOf "[-1]") (lineOf "[-/**/1,]") ∧
    parseLiteral "[-/**/1,]" = .ok (.array [.number (.integer (-1) (by decide))]) := by
  have hcomment (html : Bool) : Spacing html ['/', '*', '*', '/'] := .block (b := ['*', '/']) rfl .nil
  have hnumber : Tokenized [']', '\n'] true [.number ['1']] (['1'] ++ [']', '\n']) :=
    .cons .nil (.number (by decide) (by decide)) (loose_cons (.inr (by decide)) _) (.nil .nil)
  have hend : Tokenized [] false [.sign ']'] [']', '\n'] :=
    .cons .nil (.sign (by decide)) (fun hsign => absurd hsign (by decide)) (.nil (.space (by decide) .nil))
  have hsigns {b : List Char} (hb : b.head? ≠ some '-') :
      Tokenized b false [.sign '[', .sign '-'] (['[', '-'] ++ b) :=
    .cons .nil (.sign (by decide)) (fun hsign => absurd hsign (by decide))
      (.cons .nil (.sign (by decide)) (fun _ => hb) (.nil .nil))
  have hfirst : Splits [.sign '[', .sign '-'] ['[', '-'] [.number ['1'], .sign ']'] ['1', ']', '\n'] :=
    ⟨hsigns (by decide), hnumber.append hend⟩
  have hlast : Splits ([.sign '[', .sign '-'] ++ [.number ['1']])
      ['[', '-', '/', '*', '*', '/', '1'] [.sign ']'] [']', '\n'] :=
    ⟨(hsigns (by decide)).append (hnumber.prepend (hcomment true)), hend⟩
  have hcommented := Relaid.spacing hfirst (hcomment false)
  have hcomma := Relaid.comma (t := .number ['1']) (c := ']') hlast rfl (by decide)
  have htext : "[-1]".toList = ['[', '-', '1', ']'] := String.toList_ofList
  have htext' : "[-/**/1,]".toList = ['[', '-', '/', '*', '*', '/', '1', ',', ']'] := String.toList_ofList
  have hrelaid : Relation.EqvGen Relaid (lineOf "[-1]") (lineOf "[-/**/1,]") := by
    rw [lineOf, lineOf, htext, htext']
    exact .trans _ _ _ (.rel _ _ hcommented) (.rel _ _ hcomma)
  exact ⟨hrelaid, (parseLiteral_relaid.2 hrelaid).mp rfl⟩

end Workyard.Options
