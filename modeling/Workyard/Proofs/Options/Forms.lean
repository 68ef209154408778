import Workyard.Proofs.Options.Quotations
import Workyard.Proofs.Options.Silence
import Workyard.Proofs.Script.Leads

/-!
# Quiet forms

Names, calls, lists, assignments and statements as they are laid out in a config. A form is made of
smaller ones: where its parts are read as trees without a fault and without a call of a marker, so is
the whole.
-/

namespace Workyard.Options

set_option autoImplicit false

open Script Script.Node Script.Draft

variable {source : List Char}

/-! ### Comments -/

/-- Blanks and line feeds, with comments that each reach to a line feed. -/
inductive Between : List Char → Prop
  | blank {bs : List Char} (hbs : Blank bs) : Between bs
  | comment {bs t cs : List Char} (hbs : Blank bs)
      (ht : ∀ c ∈ t, Lexeme.isLineEnd c = false ∧ c ≠ '\r') (h : Between ('\n' :: cs)) :
      Between (bs ++ '/' :: '/' :: (t ++ '\n' :: cs))

theorem comment_line {t cs : List Char} (ht : ∀ c ∈ t, Lexeme.isLineEnd c = false ∧ c ≠ '\r') :
    Lexeme.comment ('/' :: '/' :: (t ++ '\n' :: cs)) = t.length + 2 := by
  have hline : Lexeme.isLineEnd '\n' = true := by decide
  rw [Lexeme.comment, List.takeWhile_append_of_pos (fun c hc => by simp [ht c hc]),
    List.takeWhile_cons_of_neg (by simp [hline]), List.append_nil, Nat.add_comm]

theorem leads_layout_between {html : Bool} {bs cs : List Char} (hbs : Between bs) (hcs : Solid cs)
    {fuel : Nat} (hfuel : bs.length < fuel) {d : Draft source} (hd : d.rest = bs ++ cs) :
    ∃ ns, (∀ n ∈ ns, n.IsLeafOf Kind.isLayout) ∧ Leads d (d.layout html fuel) ns cs := by
  induction hbs generalizing d fuel with
  | blank hbs =>
    obtain ⟨k, rfl⟩ : ∃ k, fuel = k + 1 := ⟨fuel - 1, by omega⟩
    exact ⟨[], List.forall_mem_nil _, leads_layout html k hd hbs hcs⟩
  | @comment bs t after hbs ht _ ih =>
    obtain ⟨k, rfl⟩ : ∃ k, fuel = k + 1 := ⟨fuel - 1, by omega⟩
    simp only [List.length_append, List.length_cons] at hfuel
    have hd : d.rest = bs ++ ('/' :: '/' :: t ++ '\n' :: (after ++ cs)) := by simpa using hd
    have hskip : (d.cursor.skip (Lexeme.space d.rest)).rest =
        '/' :: '/' :: t ++ '\n' :: (after ++ cs) := by
      rw [Text.Cursor.rest_skip, hd, space_append hbs rfl, show d.cursor.rest = _ from hd,
        List.drop_left]
    generalize hs : (⟨d.nodes, d.cursor.skip (Lexeme.space d.rest)⟩ : Draft source) = s
    have hstart : Leads d s [] ('/' :: '/' :: t ++ '\n' :: (after ++ cs)) := hs ▸ ⟨rfl, hskip⟩
    have hcomment : Lexeme.comment s.rest = t.length + 2 := hstart.rest_eq ▸ comment_line ht
    have htoken := hstart.trans (leads_token .comment hstart.rest_eq)
    have hlength : ('\n' :: after).length < k := by rw [List.length_cons]; omega
    obtain ⟨ns, hns, hleads⟩ := ih hlength htoken.rest_eq
    have hlayout : d.layout html (k + 1) = (s.token .comment (t.length + 2)).layout html k := by
      rw [layout]
      simp only [hs, hcomment]
      rfl
    rw [hlayout]
    refine ⟨_, ?_, htoken.trans hleads⟩
    exact List.forall_mem_cons.mpr ⟨⟨.comment, _, _, rfl, rfl⟩, hns⟩

theorem leads_space_between {bs cs : List Char} (hbs : Between bs) (hcs : Solid cs) {d : Draft source}
    (hd : d.rest = bs ++ cs) :
    ∃ ns, (∀ n ∈ ns, n.IsLeafOf Kind.isLayout) ∧ Leads d d.space ns cs :=
  leads_layout_between hbs hcs (by rw [hd, List.length_append]; omega) hd

/-! ### What comes after -/

/-- After white space a text goes on with a sign. -/
inductive Ahead : List Char → List Char → Prop
  | intro {bs cs : List Char} (hbs : Blank bs) (hcs : Solid cs) : Ahead (bs ++ cs) cs

/-- What comes after a primary with its members and calls. -/
structure After (rest : List Char) : Prop where
  stops : Stops rest
  ahead : ∃ cs, Ahead rest cs ∧ Idle cs

section After

variable {d e : Draft source} {rest cs : List Char} {fuel : Nat}

theorem Ahead.here (h : Solid cs) : Ahead cs cs :=
  .intro blank_nil h

theorem Ahead.blank (h : Solid cs) : Ahead (' ' :: cs) cs :=
  Ahead.intro blank_one h

theorem Ahead.gap (h : Ahead rest cs) (hd : d.rest = rest) : Leads d d.gap [] cs := by
  obtain ⟨hbs, hcs⟩ := h
  exact leads_gap hd hbs hcs

theorem Ahead.space (h : Ahead rest cs) (hd : d.rest = rest) : Leads d d.space [] cs := by
  obtain ⟨hbs, hcs⟩ := h
  exact leads_space hd hbs hcs

theorem after_of_settled (h : Settled rest) : After rest := by
  have hstops := h.breaks.stops
  obtain ⟨hbs, hcs⟩ := h
  exact ⟨hstops, _, .intro hbs hcs.solid, idle_of_ends hcs⟩

/-- A sign of two blanks around it, as it stands between the sides of an assignment. -/
theorem after_assignment (cs : List Char) : After (' ' :: '=' :: ' ' :: cs) := by
  refine ⟨by rintro c ⟨⟩; decide, '=' :: ' ' :: cs, ?_, ?_, rfl⟩
  · exact .blank ⟨rfl, rfl, rfl⟩
  · rintro c ⟨⟩
    decide

end After

/-! ### Names -/

/-- The words that an operand comes after. -/
def prefixWords : List String :=
  ["typeof", "void", "delete", "await", "yield"]

/-- The words with a meaning of their own where an operand begins. -/
def operandWords : List String :=
  prefixWords ++ ["true", "false", "null", "undefined", "this", "super", "function", "class", "new",
    "import", "async"]

/-- A word without escapes that is a name. -/
structure IsName (w : List Char) : Prop where
  parts : ∀ c ∈ w, Lexeme.isWordPart c = true
  start : w.head?.map Char.isDigit = some false
  free : String.ofList w ∉ operandWords

instance : DecidablePred IsName := fun w =>
  decidable_of_iff ((∀ c ∈ w, Lexeme.isWordPart c = true) ∧ w.head?.map Char.isDigit = some false ∧
    String.ofList w ∉ operandWords) ⟨fun h => ⟨h.1, h.2.1, h.2.2⟩, fun h => ⟨h.parts, h.start, h.free⟩⟩

section Names

variable {d : Draft source} {w rest cs : List Char} {fuel : Nat}

theorem IsName.exists_cons (h : IsName w) : ∃ c t, w = c :: t ∧ c.isDigit = false := by
  obtain ⟨c, hc, hdigit⟩ := Option.map_eq_some_iff.mp h.start
  obtain ⟨t, rfl⟩ := List.head?_eq_some_iff.mp hc
  exact ⟨c, t, rfl, hdigit⟩

/-- Neither white space nor a comment begins with a part of a word. -/
theorem begins_of_wordPart {c : Char} (h : Lexeme.isWordPart c = true) (cs : List Char) :
    Begins (c :: cs) := by
  have hne (x : Char) (hx : Lexeme.isWordPart x = false) : c ≠ x := by
    rintro rfl
    exact Bool.false_ne_true (hx.symm.trans h)
  have hspace : Lexeme.isSpace c = false := by
    simp only [Lexeme.isWordPart, Bool.not_eq_true', Bool.or_eq_false_iff] at h
    exact h.1.2
  refine ⟨⟨?_, ?_, ?_⟩, c, cs, rfl, ?_⟩
  · rw [Lexeme.space, List.takeWhile_cons_of_neg (by simp [hspace]), List.length_nil]
  · unfold Lexeme.comment
    split
    · exact absurd (List.cons.inj ‹_›).1 (hne _ (by decide))
    · exact absurd (List.cons.inj ‹_›).1 (hne _ (by decide))
    · rfl
  · unfold Lexeme.htmlComment
    split
    · exact absurd (List.cons.inj ‹_›).1 (hne _ (by decide))
    · exact absurd (List.cons.inj ‹_›).1 (hne _ (by decide))
    · rfl
  · simp only [List.mem_cons, List.not_mem_nil, or_false, not_or]
    refine ⟨?_, ?_, ?_, ?_, ?_, ?_⟩
    all_goals exact hne _ (by decide)

theorem IsName.rest_ne (h : IsName w) (hd : d.rest = w ++ rest) {x : Char}
    (hx : Lexeme.isWordPart x = false) (xs : List Char) : d.rest ≠ x :: xs := by
  obtain ⟨c, t, rfl, -⟩ := h.exists_cons
  intro heq
  rw [hd] at heq
  obtain rfl := (List.cons.inj heq).1
  exact Bool.false_ne_true (hx.symm.trans (h.parts c List.mem_cons_self))

theorem IsName.begins (h : IsName w) (rest : List Char) : Begins (w ++ rest) := by
  obtain ⟨c, t, rfl, -⟩ := h.exists_cons
  exact begins_of_wordPart (h.parts c List.mem_cons_self) _

theorem leads_word (kind : Kind) (hw : IsName w) (hrest : Stops rest) (hd : d.rest = w ++ rest) :
    d.word = String.ofList w ∧
      Leads d (d.wordToken kind) [.leaf kind d.cursor.mark (String.ofList w)] rest := by
  obtain ⟨c, t, rfl, hdigit⟩ := hw.exists_cons
  exact leads_wordToken kind hdigit hw.parts hrest hd

/-- A word with a meaning of its own, or a name. -/
theorem primary_of_word {c : Char} {t : List Char} (hpart : ∀ x ∈ c :: t, Lexeme.isWordPart x = true)
    (hdigit : c.isDigit = false) (hrest : Stops rest) (hd : d.rest = c :: t ++ rest) :
    primary (fuel + 1) d = worded fuel d := by
  have hstart : Lexeme.isWordStart c = true := by
    rw [Lexeme.isWordStart, hdigit, hpart c List.mem_cons_self]
    rfl
  refine primary_of_wordStart (show d.rest = c :: (t ++ rest) from hd) hstart ?_
  rw [hd, word_append hdigit hpart hrest]
  exact Nat.succ_ne_zero _

theorem worded_of_free (h : d.word ∉ operandWords) : worded (fuel + 1) d = named fuel d := by
  rw [worded]
  split
  all_goals first
    | rfl
    | exact absurd (by rw [‹d.word = _›]; decide) h

/-- A name is an operand where no arrow comes after it. -/
theorem leads_name (fuel : Nat) (hw : IsName w) (hrest : Stops rest) (hahead : Ahead rest cs)
    (harrow : Lexeme.startsWith "=>" cs = false) (hd : d.rest = w ++ rest) :
    Leads d (primary (fuel + 3) d) [.leaf .name d.cursor.mark (String.ofList w)] rest := by
  obtain ⟨hword, htoken⟩ := leads_word .name hw hrest hd
  obtain ⟨c, t, rfl, hdigit⟩ := hw.exists_cons
  have hgap : (d.wordToken .name).gap.beginsWith "=>" = false := by
    rw [beginsWith, (hahead.gap htoken.rest_eq).rest_eq]
    exact harrow
  rw [primary_of_word hw.parts hdigit hrest hd, worded_of_free (hword ▸ hw.free), named, hgap]
  exact htoken

theorem bare_of_name (hw : IsName w) (hrest : Stops rest) (hd : d.rest = w ++ rest) : Bare d := by
  have hword := (leads_word .name hw hrest hd).1
  obtain ⟨c, t, rfl, -⟩ := hw.exists_cons
  have hpart := hw.parts c List.mem_cons_self
  refine ⟨⟨c, t ++ rest, hd, ?_⟩, ?_⟩
  · simp only [List.mem_cons, List.not_mem_nil, or_false, not_or]
    refine ⟨?_, ?_, ?_, ?_⟩
    all_goals
      rintro rfl
      exact absurd hpart (by decide)
  · rw [hword]
    exact fun hmem => hw.free (List.mem_append_left _ hmem)

theorem stops_blank (cs : List Char) : Stops (' ' :: cs) := by
  rintro c ⟨⟩
  decide

/-- A word of a meaning of its own, and the blank after it. -/
theorem leads_keyword {c : Char} {t : List Char} (hpart : ∀ x ∈ c :: t, Lexeme.isWordPart x = true)
    (hdigit : c.isDigit = false) (hcs : Solid cs) (hd : d.rest = c :: t ++ ' ' :: cs) :
    d.word = String.ofList (c :: t) ∧ (d.wordToken .punctuation).gap.rest = cs ∧
      Leads d (d.wordToken .punctuation).space
        [.leaf .punctuation d.cursor.mark (String.ofList (c :: t))] cs := by
  obtain ⟨hword, htoken⟩ := leads_wordToken .punctuation hdigit hpart (stops_blank cs) hd
  exact ⟨hword, (leads_gap_blank htoken.rest_eq hcs).rest_eq,
    htoken.trans (leads_space_blank htoken.rest_eq hcs)⟩

end Names

/-! ### Forms -/

/-- A quiet node of a kind that has children. -/
def QuietBranch (callee : String) (kind : Kind) (n : Node source) : Prop :=
  (∃ a b ns, n = .branch kind a b ns) ∧ Quiet callee n

/-- A text is read as one node wherever an operand stands, given so many levels. -/
structure Form (read : Nat → Draft source → Draft source) (P : Node source → Prop) (levels : Nat)
    (cs : List Char) : Prop where
  begins : ∀ rest, Begins (cs ++ rest)
  leads : ∀ {fuel : Nat} {d : Draft source} {rest : List Char}, levels ≤ fuel → d.rest = cs ++ rest →
    Settled rest → ∃ n, P n ∧ Leads d (read fuel d) [n] rest

/-- A text is read as one primary with its members and calls, given so many levels. -/
structure Chain (P : Node source → Prop) (levels : Nat) (cs : List Char) : Prop where
  begins : ∀ rest, Begins (cs ++ rest)
  bare : ∀ {d : Draft source} {rest : List Char}, d.rest = cs ++ rest → After rest → Bare d
  leads : ∀ {fuel : Nat} {d : Draft source} {rest : List Char}, levels ≤ fuel → d.rest = cs ++ rest →
    After rest → ∃ n, P n ∧ Leads (fresh d.cursor)
      (postfixTail fuel true d.cursor (primary fuel (fresh d.cursor))) [n] rest

/-- A text is the entries of a list, from one on or after one, given so many levels. -/
structure Listed (source : List Char) (callee : String) (l : Listing) (first : Bool) (levels : Nat)
    (cs : List Char) : Prop where
  settled : first = false → ∀ rest, Settled (cs ++ rest)
  leads : ∀ {fuel : Nat} {d : Draft source} {rest : List Char}, levels ≤ fuel → d.rest = cs ++ rest →
    ∃ ns, (∀ n ∈ ns, Quiet callee n) ∧
      Leads d (if first then entries fuel l d else entriesAfter fuel l d) ns rest

section Forms

variable {read : Nat → Draft source → Draft source} {P Q : Node source → Prop} {callee : String}
  {levels levels' : Nat} {cs w args rest : List Char} {l : Listing} {d e : Draft source} {n : Node source}

theorem Form.imp (h : Form read P levels cs) (himp : ∀ n, P n → Q n) : Form read Q levels cs where
  begins := h.begins
  leads hfuel hd hrest := by
    obtain ⟨n, hn, hleads⟩ := h.leads hfuel hd hrest
    exact ⟨n, himp n hn, hleads⟩

theorem Form.congr {cs' : List Char} (h : Form read P levels cs) (hlevels : levels ≤ levels')
    (hcs : cs = cs') : Form read P levels' cs' where
  begins := hcs ▸ h.begins
  leads hfuel hd hrest := h.leads (Nat.le_trans hlevels hfuel) (hcs ▸ hd) hrest

theorem Listed.congr {first : Bool} {cs' : List Char} (h : Listed source callee l first levels cs)
    (hlevels : levels ≤ levels') (hcs : cs = cs') : Listed source callee l first levels' cs' where
  settled := hcs ▸ h.settled
  leads hfuel hd := h.leads (Nat.le_trans hlevels hfuel) (hcs ▸ hd)

theorem Chain.imp (h : Chain P levels cs) (himp : ∀ n, P n → Q n) : Chain Q levels cs where
  begins := h.begins
  bare := h.bare
  leads hfuel hd hrest := by
    obtain ⟨n, hn, hleads⟩ := h.leads hfuel hd hrest
    exact ⟨n, himp n hn, hleads⟩

theorem Listed.leads_entries {fuel : Nat} (h : Listed source callee l true levels cs)
    (hfuel : levels ≤ fuel) (hd : d.rest = cs ++ rest) :
    ∃ ns, (∀ n ∈ ns, Quiet callee n) ∧ Leads d (entries fuel l d) ns rest :=
  h.leads hfuel hd

theorem Form.expression (h : Form operand P levels cs) : Form expression P (levels + 2) cs where
  begins := h.begins
  leads {fuel d rest} hfuel hd hrest := by
    obtain ⟨k, rfl⟩ : ∃ k, fuel = k + 2 := ⟨fuel - 2, by omega⟩
    obtain ⟨n, hn, hleads⟩ := h.leads (d := fresh d.cursor) (show levels ≤ k + 1 by omega) hd hrest
    exact ⟨n, hn, leads_expression hrest hleads⟩

theorem Chain.operand (h : Chain P levels cs) : Form operand P (levels + 3) cs where
  begins := h.begins
  leads {fuel d rest} hfuel hd hrest := by
    obtain ⟨k, rfl⟩ : ∃ k, fuel = k + 3 := ⟨fuel - 3, by omega⟩
    have hafter := after_of_settled hrest
    obtain ⟨n, hn, hleads⟩ := h.leads (show levels ≤ k + 1 by omega) hd hafter
    have hends := rest_gap hleads.rest_eq hrest
    refine ⟨n, hn, ?_⟩
    rw [operand_of_bare (h.bare hd hafter), postfixed, assigned_of_ends d.cursor hends]
    exact hleads.append

/-- A primary without members and calls is a chain. -/
theorem leads_chain {fuel : Nat} (hrest : After rest)
    (h : Leads (fresh d.cursor) (primary (fuel + 1) (fresh d.cursor)) [n] rest) :
    Leads (fresh d.cursor)
      (postfixTail (fuel + 1) true d.cursor (primary (fuel + 1) (fresh d.cursor))) [n] rest := by
  obtain ⟨cs, hahead, hidle⟩ := hrest.ahead
  rw [postfixTail_of_idle true d.cursor ((hahead.gap h.rest_eq).rest_eq.symm ▸ hidle)]
  exact h

theorem chain_name (hw : IsName w) :
    Chain (fun n : Node source => ∃ m, n = .leaf .name m (String.ofList w)) 3 w where
  begins := hw.begins
  bare hd hrest := bare_of_name hw hrest.stops hd
  leads {fuel d rest} hfuel hd hrest := by
    obtain ⟨k, rfl⟩ : ∃ k, fuel = k + 3 := ⟨fuel - 3, by omega⟩
    obtain ⟨cs, hahead, hidle⟩ := hrest.ahead
    exact ⟨_, ⟨_, rfl⟩, leads_chain hrest
      (leads_name (d := fresh d.cursor) k hw hrest.stops hahead hidle.arrow hd)⟩

theorem chain_literal {es : List Element} (h : Divided .single es) :
    Chain (Quiet callee : Node source → Prop) (es.length + 3) (literal .single es) where
  begins rest := ⟨⟨rfl, rfl, rfl⟩, _, _, rfl, by decide⟩
  bare hd _ := bare_of_head hd (by decide) rfl
  leads {fuel d rest} hfuel hd hrest := by
    obtain ⟨k, rfl⟩ : ∃ k, fuel = k + 1 := ⟨fuel - 1, by omega⟩
    obtain ⟨a, b, ns, hns, hleads⟩ :=
      leads_read (d := fresh d.cursor) (show es.length + 1 < k by omega) h hd
    have hprimary : primary (k + 1) (fresh d.cursor) = Quote.single.read k (fresh d.cursor) := by
      have hd : (fresh d.cursor).rest = '\x27' :: (es.flatMap Element.chars ++ ['\x27'] ++ rest) := hd
      rw [primary]
      simp only [hd]
      rfl
    refine ⟨_, ?_, leads_chain hrest (hprimary ▸ hleads)⟩
    exact .plain rfl rfl (quiet_of_leaves hns.leaves)

/-- Text without an escape between single quotes. -/
theorem chain_text (h : ∀ c ∈ cs, Quote.single.Holds c) :
    Chain (Quiet callee : Node source → Prop) (cs.length + 3) ('\x27' :: (cs ++ ['\x27'])) := by
  have hdivided : Divided .single (cs.map .raw) := by
    refine ⟨List.forall_mem_map.mpr h, List.isChain_map _ |>.mpr ?_⟩
    refine List.Pairwise.isChain (List.pairwise_of_forall fun c d => ?_)
    rintro ⟨⟨⟩, -⟩
  have hliteral : literal .single (cs.map .raw) = '\x27' :: (cs ++ ['\x27']) := by
    simp [literal, Quote.char, List.flatMap_map, Element.chars]
  have hchain : Chain (Quiet callee : Node source → Prop) _ _ := chain_literal hdivided
  rwa [hliteral, List.length_map] at hchain

/-- A list in brackets, as a value of its own. -/
theorem chain_listed {c : Char} {kind : Kind} (hkind : kind.isFault = false)
    (hcall : decide (kind = .call) = false)
    (hc : ∀ rest, Begins (c :: rest) ∧ Lexeme.word (c :: rest) = 0) (hsign : c ∉ ['!', '~', '+', '-'])
    (hprimary : ∀ (fuel : Nat) (d : Draft source) (rest : List Char), d.rest = c :: rest →
      primary (fuel + 1) d = d.enclose kind fun b => entries fuel l (b.sign 1))
    (h : Listed source callee l true levels cs) :
    Chain (QuietBranch callee kind : Node source → Prop) (levels + 1) (c :: cs) where
  begins rest := (hc _).1
  bare hd _ := bare_of_head hd hsign (hc _).2
  leads {fuel d rest} hfuel hd hrest := by
    obtain ⟨k, rfl⟩ : ∃ k, fuel = k + 1 := ⟨fuel - 1, by omega⟩
    have hopen := leads_sign (d := fresh d.cursor) hd
    obtain ⟨ns, hns, hleads⟩ := h.leads_entries (show levels ≤ k by omega) hopen.rest_eq
    have hlisted : Leads (fresh d.cursor)
        ((fresh d.cursor).enclose kind fun b => entries k l (b.sign 1)) _ rest :=
      (hopen.trans hleads).close (d := fresh d.cursor) kind
    rw [← hprimary k (fresh d.cursor) _ hd] at hlisted
    refine ⟨_, ⟨⟨_, _, _, rfl⟩, ?_⟩, leads_chain hrest hlisted⟩
    exact .plain hkind hcall (List.forall_mem_cons.mpr ⟨.leaf rfl, hns⟩)

theorem chain_array (h : Listed source callee .items true levels cs) :
    Chain (QuietBranch callee .array : Node source → Prop) (levels + 1) ('[' :: cs) :=
  chain_listed rfl rfl (fun rest => ⟨⟨⟨rfl, rfl, rfl⟩, _, _, rfl, by decide⟩, rfl⟩) (by decide)
    (fun fuel d rest hd => by rw [primary]; simp only [hd]) h

theorem chain_object (h : Listed source callee .members true levels cs) :
    Chain (QuietBranch callee .object : Node source → Prop) (levels + 1) ('\x7b' :: cs) :=
  chain_listed rfl rfl (fun rest => ⟨⟨⟨rfl, rfl, rfl⟩, _, _, rfl, by decide⟩, rfl⟩) (by decide)
    (fun fuel d rest hd => by rw [primary]; simp only [hd]) h

/-! ### Calls -/

theorem leads_arguments {fuel : Nat} (h : Listed source callee .values true levels args)
    (hfuel : levels ≤ fuel) (hd : d.rest = '(' :: (args ++ rest)) :
    ∃ n, Quiet callee n ∧ Leads d (arguments (fuel + 1) d) [n] rest := by
  have hopen := leads_sign (d := fresh d.cursor) hd
  obtain ⟨ns, hns, hleads⟩ := h.leads_entries hfuel hopen.rest_eq
  have hall := (hopen.trans hleads).close (d := d) .arguments
  refine ⟨_, ?_, hall⟩
  exact .plain rfl rfl (List.forall_mem_cons.mpr ⟨.leaf rfl, hns⟩)

/-- A name that is called. -/
theorem chain_call (hw : IsName w) (hcallee : String.ofList w ≠ callee)
    (h : Listed source callee .values true levels args) :
    Chain (Quiet callee : Node source → Prop) (levels + 3) (w ++ '(' :: args) where
  begins rest := by
    rw [List.append_assoc]
    exact hw.begins _
  bare hd _ := by
    rw [List.append_assoc] at hd
    exact bare_of_name hw (by rintro c ⟨⟩; decide) hd
  leads {fuel d rest} hfuel hd hrest := by
    obtain ⟨k, rfl⟩ : ∃ k, fuel = k + 3 := ⟨fuel - 3, by omega⟩
    obtain ⟨cs, hahead, hidle⟩ := hrest.ahead
    have hd : (fresh d.cursor).rest = w ++ '(' :: (args ++ rest) := by
      rw [← List.cons_append, ← List.append_assoc]
      exact hd
    have hsolid : Solid ('(' :: (args ++ rest)) := ⟨rfl, rfl, rfl⟩
    have hname := leads_name (d := fresh d.cursor) k hw (by rintro c ⟨⟩; decide)
      (Ahead.here hsolid) rfl hd
    have hgap := hname.trans (leads_gap_here hname.rest_eq hsolid)
    obtain ⟨n, hn, harguments⟩ := leads_arguments h (show levels ≤ k + 1 by omega) hgap.rest_eq
    have hcall := (hgap.trans harguments).closed .call
    have htail : postfixTail (k + 3) true d.cursor (primary (k + 3) (fresh d.cursor)) =
        (arguments (k + 2) (primary (k + 3) (fresh d.cursor)).gap).close .call d.cursor := by
      rw [postfixTail]
      simp only [hgap.rest_eq, if_true]
      exact postfixTail_of_idle true d.cursor ((hahead.gap hcall.rest_eq).rest_eq.symm ▸ hidle)
    rw [htail]
    refine ⟨_, ?_, hcall⟩
    exact .call hcallee (List.forall_mem_singleton.mpr hn)

/-- What `new` makes reaches to the end of its arguments. -/
theorem leads_newFrom {fuel : Nat} (hw : IsName w) (h : Listed source callee .values true levels args)
    (hfuel : levels ≤ fuel) (hd : d.rest = ['n', 'e', 'w'] ++ ' ' :: (w ++ '(' :: (args ++ rest))) :
    ∃ n, Quiet callee n ∧ Leads d (newFrom (fuel + 4) d) [n] rest := by
  have hopen : Solid ('(' :: (args ++ rest)) := ⟨rfl, rfl, rfl⟩
  have hbegins := hw.begins ('(' :: (args ++ rest))
  obtain ⟨-, hahead, hspace⟩ := leads_keyword (d := fresh d.cursor) (by decide) rfl hbegins.solid hd
  generalize hs : ((fresh d.cursor).wordToken .punctuation).space = s at hspace
  obtain ⟨hword, -⟩ := leads_word .name hw (by rintro c ⟨⟩; decide) hspace.rest_eq
  have hname := leads_name (d := fresh s.cursor) fuel hw (by rintro c ⟨⟩; decide)
    (Ahead.here hopen) rfl hspace.rest_eq
  have hnew : (s.word == "new") = false := by
    rw [beq_eq_false_iff_ne, hword]
    intro heq
    exact hw.free (heq ▸ by decide)
  -- Calls are put off while the callee is read, so that it is the name alone.
  have hmade : postfixTail (fuel + 3) false s.cursor (primary (fuel + 3) (fresh s.cursor)) =
      primary (fuel + 3) (fresh s.cursor) := by
    rw [postfixTail]
    simp only [(leads_gap_here hname.rest_eq hopen).rest_eq]
    exact if_neg Bool.false_ne_true
  have hcalled := hspace.trans hname.append
  have hgap := hcalled.trans (leads_gap_here hcalled.rest_eq hopen)
  obtain ⟨n, hn, harguments⟩ := leads_arguments h (show levels ≤ fuel + 2 by omega) hgap.rest_eq
  have hall := (hgap.trans harguments).close (d := d) .construction
  have hpoint : ((fresh d.cursor).wordToken .punctuation).gap.beginsWith "." = false := by
    rw [beginsWith, hahead]
    obtain ⟨c, t, hcs, hc⟩ := hbegins.head
    have hne : c ≠ '.' := by
      rintro rfl
      exact hc (by decide)
    rw [hcs]
    simp [Lexeme.startsWith, List.isPrefixOf, hne.symm]
  have hparenthesis : (s.append (primary (fuel + 3) (fresh s.cursor))).gap.beginsWith "(" = true := by
    rw [beginsWith, hgap.rest_eq]
    rfl
  have hnewFrom : newFrom (fuel + 4) d = d.append ((arguments (fuel + 3)
      (s.append (primary (fuel + 3) (fresh s.cursor))).gap).close .construction d.cursor) := by
    rw [newFrom]
    simp only [hpoint, hs, hnew, hmade, hparenthesis, Bool.false_eq_true, if_false, if_true]
  rw [hnewFrom]
  refine ⟨_, ?_, hall⟩
  exact .triple rfl rfl (.leaf rfl) (.leaf rfl) hn

/-- A name that something new is made from. -/
theorem chain_construction (hw : IsName w) (h : Listed source callee .values true levels args) :
    Chain (Quiet callee : Node source → Prop) (levels + 6)
      (['n', 'e', 'w'] ++ ' ' :: (w ++ '(' :: args)) where
  begins rest := begins_of_wordPart (by decide) _
  bare {d rest} hd _ := by
    have hword := (leads_wordToken (c := 'n') (w := ['e', 'w']) .punctuation rfl (by decide)
      (stops_blank (w ++ '(' :: args ++ rest)) hd).1
    exact ⟨⟨_, _, hd, by decide⟩, by rw [hword]; decide⟩
  leads {fuel d rest} hfuel hd hrest := by
    obtain ⟨k, rfl⟩ : ∃ k, fuel = k + 6 := ⟨fuel - 6, by omega⟩
    have hd : (fresh d.cursor).rest = ['n', 'e', 'w'] ++ ' ' :: (w ++ '(' :: (args ++ rest)) := by
      rw [show (fresh d.cursor).rest = _ from hd]
      simp
    have hstops := stops_blank (w ++ '(' :: (args ++ rest))
    have hword := (leads_wordToken .punctuation rfl (by decide) hstops hd).1
    obtain ⟨n, hn, hleads⟩ := leads_newFrom hw h (show levels ≤ k by omega) hd
    have hprimary : primary (k + 6) (fresh d.cursor) = newFrom (k + 4) (fresh d.cursor) := by
      rw [primary_of_word (by decide) rfl hstops hd, worded]
      simp only [hword]
    exact ⟨n, hn, leads_chain hrest (hprimary ▸ hleads)⟩

/-- An operand that is waited for. -/
theorem form_awaited (h : Form operand (Quiet callee : Node source → Prop) levels cs) :
    Form operand (Quiet callee : Node source → Prop) (levels + 1)
      (['a', 'w', 'a', 'i', 't'] ++ ' ' :: cs) where
  begins rest := begins_of_wordPart (by decide) _
  leads {fuel d rest} hfuel hd hrest := by
    obtain ⟨k, rfl⟩ : ∃ k, fuel = k + 1 := ⟨fuel - 1, by omega⟩
    have hd : (fresh d.cursor).rest = ['a', 'w', 'a', 'i', 't'] ++ ' ' :: (cs ++ rest) := by
      rw [show (fresh d.cursor).rest = _ from hd]
      simp
    obtain ⟨hword, -, hspace⟩ := leads_keyword (by decide) rfl (h.begins rest).solid hd
    obtain ⟨n, hn, hleads⟩ := h.leads (show levels ≤ k by omega) hspace.rest_eq hrest
    have hall := (hspace.trans hleads).close (d := d) .other
    have hword : d.word = "await" := hword
    have hd : d.rest = 'a' :: ('w' :: 'a' :: 'i' :: 't' :: ' ' :: (cs ++ rest)) := hd
    have hoperand : operand (k + 1) d =
        d.enclose .other fun b => operand k (b.wordToken .punctuation).space := by
      rw [operand]
      simp [hword, beginsWith, Lexeme.startsWith, List.isPrefixOf, hd]
    rw [hoperand]
    refine ⟨_, ?_, hall⟩
    exact .pair rfl rfl (.leaf rfl) hn

/-! ### Parentheses and functions -/

/-- An object in parentheses. -/
theorem chain_parenthesized
    (h : Form Draft.expression (QuietBranch callee .object : Node source → Prop) levels cs) :
    Chain (Quiet callee : Node source → Prop) (levels + 4) ('(' :: (cs ++ [')'])) where
  begins rest := ⟨⟨rfl, rfl, rfl⟩, _, _, rfl, by decide⟩
  bare hd _ := bare_of_head hd (by decide) rfl
  leads {fuel d rest} hfuel hd hrest := by
    obtain ⟨k, rfl⟩ : ∃ k, fuel = k + 4 := ⟨fuel - 4, by omega⟩
    obtain ⟨ahead, hahead, hidle⟩ := hrest.ahead
    have hd : (fresh d.cursor).rest = '(' :: (cs ++ ([] ++ ')' :: rest)) := by
      rw [show (fresh d.cursor).rest = _ from hd]
      simp
    have hread (e : Draft source) (he : e.rest = cs ++ ([] ++ ')' :: rest)) :
        ∃ n, (Single n ∧ Quiet callee n) ∧ Leads e (Draft.expression k e) [n] ([] ++ ')' :: rest) := by
      obtain ⟨n, ⟨⟨a, b, ns, rfl⟩, hquiet⟩, hleads⟩ :=
        h.leads (show levels ≤ k by omega) he (Ends.parenthesis rest).settled
      exact ⟨_, ⟨⟨rfl, by rintro ⟨⟩, by rintro ⟨⟩, by simp [text]⟩, hquiet⟩, hleads⟩
    obtain ⟨b, m, n, m', -, -, hn, hleads⟩ := leads_primary_parenthesized hd (h.begins _) blank_nil
      hread (fun e he => (hahead.gap he).rest_eq) hidle.arrow
    refine ⟨_, ?_, leads_chain hrest hleads⟩
    exact .triple rfl rfl (.leaf rfl) hn (.leaf rfl)

theorem leads_retag (change : Node source → Node source) (ns : List (Node source))
    (h : Leads d e (ns ++ [n]) rest) : Leads d (e.retag change) (ns ++ [change n]) rest := by
  have hnodes : e.nodes = n :: (ns.reverse ++ d.nodes) := by simp [h.nodes_eq]
  unfold retag
  rw [hnodes]
  exact ⟨by simp, h.rest_eq⟩

theorem leads_noArguments (fuel : Nat) (hd : d.rest = '(' :: ')' :: rest) : ∃ a b m m',
    Leads d (arguments (fuel + 2) d)
      [.branch .arguments a b [.leaf .punctuation m "(", .leaf .punctuation m' ")"]] rest := by
  have hsign := leads_sign (d := fresh d.cursor) hd
  have hclosing : ((fresh d.cursor).sign 1).rest = [] ++ ')' :: rest := hsign.rest_eq
  obtain ⟨m, hclose⟩ := leads_entries_close fuel .values hclosing blank_nil
  exact ⟨_, _, _, m, (hsign.trans hclose).close .arguments⟩

/-- A function without parameters that waits for others, and what it returns in parentheses. -/
theorem form_async (h : Form Draft.expression (Quiet callee : Node source → Prop) levels ('(' :: cs)) :
    Form operand (Quiet callee : Node source → Prop) (levels + 6)
      (['a', 's', 'y', 'n', 'c'] ++ ' ' :: '(' :: ')' :: ' ' :: '=' :: '>' :: ' ' :: '(' :: cs) where
  begins rest := begins_of_wordPart (by decide) _
  leads {fuel d rest} hfuel hd hrest := by
    obtain ⟨k, rfl⟩ : ∃ k, fuel = k + 6 := ⟨fuel - 6, by omega⟩
    have hopen : Solid ('(' :: ')' :: ' ' :: '=' :: '>' :: ' ' :: '(' :: (cs ++ rest)) := ⟨rfl, rfl, rfl⟩
    have hd : (fresh d.cursor).rest = ['a', 's', 'y', 'n', 'c'] ++ ' ' :: _ := hd
    obtain ⟨hword, hahead, -⟩ := leads_keyword (by decide) rfl hopen hd
    have hname := (leads_wordToken .name rfl (by decide) (stops_blank _) hd).2
    have hgap := hname.trans (leads_gap_blank hname.rest_eq hopen)
    -- The parameters are read as the arguments of a call.
    obtain ⟨a, b, m, m', harguments⟩ := leads_noArguments k hgap.rest_eq
    generalize he : arguments (k + 2) ((fresh d.cursor).wordToken .name).gap = e at harguments
    have hcall := hgap.trans harguments
    have hpoint : e.gap.beginsWith "=>" = true := by
      rw [beginsWith, (leads_gap_blank hcall.rest_eq ⟨rfl, rfl, rfl⟩).rest_eq]
      rfl
    have hparameters := leads_retag (·.toParameters) _ hcall
    have harrow := hparameters.trans (leads_gap_blank hparameters.rest_eq ⟨rfl, rfl, rfl⟩)
    have hpast := harrow.trans
      (leads_token .punctuation (show _ = ['=', '>'] ++ _ from harrow.rest_eq))
    have hbody := hpast.trans (leads_space_blank hpast.rest_eq ⟨rfl, rfl, rfl⟩)
    generalize hf : ((e.retag (·.toParameters)).gap.sign 2).space = f
    have hbody : Leads (fresh d.cursor) f _ _ := hf ▸ hbody
    obtain ⟨n, hn, hleads⟩ := h.leads (show levels ≤ k + 1 by omega) hbody.rest_eq hrest
    have hall := (hbody.trans hleads).close (d := fresh d.cursor) .function
    have hplain : (((fresh d.cursor).wordToken .punctuation).gap.word == "function") = false := by
      rw [word_eq_empty hahead rfl]
      rfl
    have hcalled : ((fresh d.cursor).wordToken .punctuation).gap.beginsWith "(" = true := by
      rw [beginsWith, hahead]
      rfl
    have hbrace : f.beginsWith "\x7b" = false := by
      rw [beginsWith, hbody.rest_eq]
      rfl
    have hprimary : primary (k + 4) (fresh d.cursor) =
        (fresh d.cursor).append
          ((Draft.expression (k + 1) f).close .function (fresh d.cursor).cursor) := by
      have hfresh : fresh (fresh d.cursor).cursor = fresh d.cursor := rfl
      rw [primary_of_word (by decide) rfl (stops_blank _) hd, worded]
      simp only [hword, hplain, hcalled, hfresh, he, hpoint, hf, arrowBody, hbrace,
        Bool.false_eq_true, if_false, if_true]
    rw [← hprimary] at hall
    have hbare : Bare d := ⟨⟨_, _, hd, by decide⟩, by rw [show d.word = _ from hword]; decide⟩
    refine ⟨_, ?_, leads_operand hbare hrest hall⟩
    have hnone : Quiet callee (branch .arguments a b
        [leaf .punctuation m "(", leaf .punctuation m' ")"]).toParameters :=
      .pair rfl rfl (.leaf rfl) (.leaf rfl)
    exact .plain rfl rfl (List.forall_mem_cons.mpr ⟨.leaf rfl, List.forall_mem_cons.mpr
      ⟨hnone, List.forall_mem_cons.mpr ⟨.leaf rfl, List.forall_mem_singleton.mpr hn⟩⟩⟩)

/-! ### Lists -/

/-- What reads one entry of a list. -/
def entryReader : Listing → Nat → Draft source → Draft source
  | .members => member
  | .items => Draft.expression
  | .values => Draft.expression

theorem entry_of_dots {fuel : Nat} (l : Listing) (h : d.beginsWith "..." = false) :
    entry (fuel + 1) l d = entryReader l fuel d := by
  rw [entry.eq_def]
  simp only [h, Bool.false_eq_true, if_false]
  cases l <;> rfl

theorem entry_of_begins {fuel : Nat} (l : Listing) (h : Begins d.rest) :
    entry (fuel + 1) l d = entryReader l fuel d :=
  entry_of_dots l (beginsWith_dots h)

theorem listed_end {first : Bool} {bs : List Char} (hbs : Blank bs) :
    Listed source callee l first 1 (bs ++ [l.closing]) where
  settled _ rest := by
    rw [List.append_assoc]
    refine .intro hbs ?_
    cases l
    · exact .brace rest
    · exact .bracket rest
    · exact .parenthesis rest
  leads {fuel d rest} hfuel hd := by
    obtain ⟨k, rfl⟩ : ∃ k, fuel = k + 1 := ⟨fuel - 1, by omega⟩
    rw [List.append_assoc] at hd
    obtain ⟨m, hleads⟩ := leads_listEnd first k l hd hbs
    exact ⟨_, List.forall_mem_singleton.mpr (.leaf rfl), hleads⟩

theorem listed_none {bs : List Char} (hbs : Between bs) :
    Listed source callee l true 1 (bs ++ [l.closing]) where
  settled := by rintro ⟨⟩
  leads {fuel d rest} hfuel hd := by
    obtain ⟨k, rfl⟩ : ∃ k, fuel = k + 1 := ⟨fuel - 1, by omega⟩
    rw [List.append_assoc] at hd
    obtain ⟨ns, hns, hspace⟩ := leads_space_between hbs (solid_closing l rest) hd
    have hleads := hspace.trans (leads_sign hspace.rest_eq)
    have hentries : entries (k + 1) l d = d.space.sign 1 := by
      rw [entries]
      simp only [hspace.rest_eq, beq_self_eq_true, if_true]
    rw [if_pos rfl, hentries]
    refine ⟨_, ?_, hleads⟩
    exact List.forall_mem_append.mpr ⟨quiet_of_layout hns, List.forall_mem_singleton.mpr (.leaf rfl)⟩

theorem listed_entry {bs after : List Char} (hbs : Blank bs)
    (h : Form (entryReader l) (Quiet callee : Node source → Prop) levels cs)
    (h' : Listed source callee l false levels' after) :
    Listed source callee l true (levels + levels' + 2) (bs ++ (cs ++ after)) where
  settled := by rintro ⟨⟩
  leads {fuel d rest} hfuel hd := by
    obtain ⟨k, rfl⟩ : ∃ k, fuel = k + 2 := ⟨fuel - 2, by omega⟩
    rw [List.append_assoc, List.append_assoc] at hd
    have hbegins := h.begins (after ++ rest)
    have hspace := leads_space hd hbs hbegins.solid
    obtain ⟨n, hn, hleads⟩ := h.leads (show levels ≤ k by omega) hspace.rest_eq (h'.settled rfl rest)
    rw [← entry_of_begins l (hspace.rest_eq ▸ hbegins)] at hleads
    obtain ⟨ns, hns, hleads'⟩ := h'.leads (show levels' ≤ k + 1 by omega) hleads.rest_eq
    refine ⟨_, List.forall_mem_cons.mpr ⟨hn, hns⟩, ?_⟩
    rw [if_pos rfl, entries_of_begins l hd hbs hbegins]
    exact hspace.trans (hleads.trans hleads')

theorem listed_comma (h : Listed source callee l true levels cs) :
    Listed source callee l false (levels + 1) (',' :: cs) where
  settled _ rest := (Ends.comma _).settled
  leads {fuel d rest} hfuel hd := by
    obtain ⟨k, rfl⟩ : ∃ k, fuel = k + 1 := ⟨fuel - 1, by omega⟩
    obtain ⟨m, ns, hns, hleads⟩ := leads_entriesAfter_comma l hd
      fun e he => h.leads_entries (show levels ≤ k by omega) he
    exact ⟨_, List.forall_mem_cons.mpr ⟨.leaf rfl, hns⟩, hleads⟩

/-! ### Members -/

/-- The words that may stand before the name of a method. -/
def modifierWords : List String :=
  ["async", "get", "set", "static"]

/-- A member that begins with a name has it as its key. -/
theorem leads_key {fuel : Nat} (hw : IsName w) (hmodifier : String.ofList w ∉ modifierWords)
    (hrest : Stops rest) (hd : d.rest = w ++ rest) :
    member (fuel + 2) d =
      d.append (memberTail (fuel + 1) d.cursor ((fresh d.cursor).wordToken .propertyName)) := by
  obtain ⟨hword, -⟩ := leads_word .name hw hrest hd
  obtain ⟨c, t, rfl, hdigit⟩ := hw.exists_cons
  have hstart : Lexeme.isWordStart c = true := by
    rw [Lexeme.isWordStart, hdigit, hw.parts c List.mem_cons_self]
    rfl
  have hlength : Lexeme.word d.rest ≠ 0 := by
    rw [hd, word_append hdigit hw.parts hrest]
    exact Nat.succ_ne_zero _
  have hnumber : Lexeme.number d.rest = 0 := hd ▸ number_of_wordStart hstart _
  have hstar : d.beginsWith "*" = false := by
    have hc : c ≠ '*' := fun heq =>
      hw.rest_ne hd (by decide : Lexeme.isWordPart '*' = false) (t ++ rest) (heq ▸ hd)
    simp [beginsWith, Lexeme.startsWith, List.isPrefixOf, hd, hc.symm]
  have hproperty : startsProperty d.rest = true := by
    rw [hd] at hlength ⊢
    show (Lexeme.word (c :: t ++ rest) != 0 || _ || _) = true
    rw [bne_iff_ne.mpr hlength]
    rfl
  have hplain : (["async", "get", "set", "static"].contains d.word) = false := by
    rw [hword]
    simpa [modifierWords] using hmodifier
  have hname : propertyName (fuel + 1) (fresh d.cursor) = (fresh d.cursor).wordToken .propertyName := by
    rw [propertyName]
    split
    all_goals try exact absurd ‹_› (hw.rest_ne hd (by decide) _)
    rw [show Lexeme.number (fresh d.cursor).rest = 0 from hnumber, if_neg (by decide)]
    exact if_pos (bne_iff_ne.mpr hlength)
  rw [member, hstar, hplain, hproperty, hname]
  rfl

/-- A member with a key and a value. -/
theorem form_pair (hw : IsName w) (hmodifier : String.ofList w ∉ modifierWords)
    (h : Form Draft.expression (Quiet callee : Node source → Prop) levels cs) :
    Form (entryReader .members) (Quiet callee : Node source → Prop) (levels + 3)
      (w ++ ':' :: ' ' :: cs) where
  begins rest := by
    rw [List.append_assoc]
    exact hw.begins _
  leads {fuel d rest} hfuel hd hrest := by
    obtain ⟨k, rfl⟩ : ∃ k, fuel = k + 2 := ⟨fuel - 2, by omega⟩
    have hd : (fresh d.cursor).rest = w ++ ':' :: ' ' :: (cs ++ rest) := by
      rw [show (fresh d.cursor).rest = _ from hd]
      simp
    have hstops : Stops (':' :: ' ' :: (cs ++ rest)) := by
      rintro c ⟨⟩
      decide
    obtain ⟨-, hkey⟩ := leads_word .propertyName hw hstops hd
    have hspace := hkey.trans (leads_space_here hkey.rest_eq ⟨rfl, rfl, rfl⟩)
    have hcolon := hspace.trans (leads_sign hspace.rest_eq)
    have hvalue := hcolon.trans (leads_space_blank hcolon.rest_eq (h.begins rest).solid)
    obtain ⟨n, hn, hleads⟩ := h.leads (show levels ≤ k by omega) hvalue.rest_eq hrest
    have hall := (hvalue.trans hleads).close (d := d) .pair
    have hmember : entryReader .members (k + 2) d = member (k + 2) d := rfl
    rw [hmember, leads_key (d := d) hw hmodifier hstops hd, memberTail_of_colon d.cursor hspace.rest_eq]
    refine ⟨_, ?_, hall⟩
    exact .triple rfl rfl (.leaf rfl) (.leaf rfl) hn

end Forms

end Workyard.Options
