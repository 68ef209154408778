import Workyard.Script.Grammar

/-!
# Plain operands

How reading goes on over a text with nothing but blanks and line feeds between its tokens: which
nodes a step of the grammar adds, and which text it leaves. An operand is plain when no operator,
call or member comes after it.
-/

namespace Workyard.Script

set_option autoImplicit false

open Workyard.Text

variable {source : List Char}

/-- Blanks and line feeds. -/
def Blank (bs : List Char) : Prop :=
  ∀ b ∈ bs, b = ' ' ∨ b = '\n'

theorem blank_nil : Blank [] :=
  fun _ hb => absurd hb List.not_mem_nil

theorem blank_one : Blank [' '] :=
  List.forall_mem_singleton.mpr (.inl rfl)

/-- Neither white space nor a comment begins the text. -/
structure Solid (cs : List Char) : Prop where
  space : Lexeme.space cs = 0
  comment : Lexeme.comment cs = 0
  htmlComment : Lexeme.htmlComment cs = 0

/-- A text at which an expression ends: nothing, a comma, a semicolon or a closing bracket. -/
inductive Ends : List Char → Prop
  | nil : Ends []
  | comma (cs : List Char) : Ends (',' :: cs)
  | semicolon (cs : List Char) : Ends (';' :: cs)
  | bracket (cs : List Char) : Ends (']' :: cs)
  | brace (cs : List Char) : Ends ('\x7d' :: cs)
  | parenthesis (cs : List Char) : Ends (')' :: cs)

/-- A text at whose first sign an expression ends. -/
inductive Settled : List Char → Prop
  | intro {bs cs : List Char} (hbs : Blank bs) (hcs : Ends cs) : Settled (bs ++ cs)

/-- What may come right after the last character of a number. -/
def Breaks (cs : List Char) : Prop :=
  ∀ c ∈ cs.head?, c ∈ [' ', '\n', ',', ';', ']', '\x7d', ')']

/-- What may come right after the last character of a word. -/
def Stops (cs : List Char) : Prop :=
  ∀ c ∈ cs.head?, Lexeme.isWordPart c = false ∧ c ≠ '\\'

/-- At the sign that stands ahead there are no more members or calls, and no arrow. -/
structure Idle (cs : List Char) : Prop where
  head : ∀ c ∈ cs.head?, c ∉ ['(', '\x60', '[', '.', '?', '+', '-']
  arrow : Lexeme.startsWith "=>" cs = false

theorem Ends.solid {cs : List Char} (h : Ends cs) : Solid cs := by
  cases h <;> exact ⟨rfl, rfl, rfl⟩

theorem Ends.settled {cs : List Char} (h : Ends cs) : Settled cs :=
  .intro blank_nil h

theorem Settled.breaks {cs : List Char} (h : Settled cs) : Breaks cs := by
  obtain @⟨bs, cs, hbs, hcs⟩ := h
  intro c hc
  cases bs with
  | nil => cases hcs <;> cases hc <;> decide
  | cons b bs =>
    obtain rfl : b = c := by simpa using hc
    rcases hbs b List.mem_cons_self with rfl | rfl <;> simp

theorem Breaks.apart {cs : List Char} (h : Breaks cs) {c : Char} (hc : c ∈ cs.head?) :
    Lexeme.isWordPart c = false ∧ c.isDigit = false ∧ c ≠ '\\' ∧ c ≠ '.' := by
  have hmem := h c hc
  simp only [List.mem_cons, List.not_mem_nil, or_false] at hmem
  rcases hmem with rfl | rfl | rfl | rfl | rfl | rfl | rfl <;> decide

theorem Breaks.stops {cs : List Char} (h : Breaks cs) : Stops cs :=
  fun _ hc => ⟨(h.apart hc).1, (h.apart hc).2.2.1⟩

theorem ne_of_not_wordPart {c x : Char} (hc : Lexeme.isWordPart c = false)
    (hx : Lexeme.isWordPart x = true) : c ≠ x := by
  rintro rfl
  exact Bool.false_ne_true (hc.symm.trans hx)

theorem isSpace_of_blank {bs : List Char} (h : Blank bs) : ∀ b ∈ bs, Lexeme.isSpace b = true := by
  intro b hb
  rcases h b hb with rfl | rfl <;> rfl

theorem space_append {bs cs : List Char} (hbs : Blank bs) (hcs : Lexeme.space cs = 0) :
    Lexeme.space (bs ++ cs) = bs.length := by
  unfold Lexeme.space at hcs ⊢
  rw [List.takeWhile_append_of_pos (isSpace_of_blank hbs), List.length_append, hcs]
  rfl

/-! ### Words and numbers -/

theorem wordTail_append {w rest : List Char} {fuel : Nat}
    (hw : ∀ c ∈ w, Lexeme.isWordPart c = true) (hrest : Stops rest) (hfuel : w.length ≤ fuel) :
    Lexeme.wordTail fuel (w ++ rest) = w.length := by
  induction w generalizing fuel with
  | nil =>
    cases fuel with
    | zero => rfl
    | succ fuel =>
      cases rest with
      | nil => rfl
      | cons c cs =>
        obtain ⟨hpart, hslash⟩ := hrest c rfl
        have hescape : Lexeme.unicodeEscape (c :: cs) = 0 := by
          unfold Lexeme.unicodeEscape
          split <;> simp_all
        simp [Lexeme.wordTail, hpart, hescape]
  | cons c w ih =>
    rw [List.length_cons] at hfuel
    obtain ⟨k, rfl⟩ : ∃ k, fuel = k + 1 := ⟨fuel - 1, by omega⟩
    rw [List.forall_mem_cons] at hw
    rw [List.cons_append, Lexeme.wordTail, if_pos hw.1, ih hw.2 (by omega), List.length_cons,
      Nat.add_comm]

theorem word_append {c : Char} {w rest : List Char} (hc : c.isDigit = false)
    (hw : ∀ x ∈ c :: w, Lexeme.isWordPart x = true) (hrest : Stops rest) :
    Lexeme.word (c :: w ++ rest) = (c :: w).length := by
  have hstart : Lexeme.isWordStart c = true := by
    simp [Lexeme.isWordStart, hc, hw c List.mem_cons_self]
  rw [List.cons_append, Lexeme.word, hstart, Bool.true_or, if_pos rfl, ← List.cons_append]
  exact wordTail_append hw hrest (by simp)

theorem digitTail_append {ds rest : List Char} (hds : ∀ c ∈ ds, c.isDigit = true)
    (hrest : Breaks rest) : Lexeme.digitTail Char.isDigit (ds ++ rest) = ds.length := by
  induction ds with
  | nil =>
    cases rest with
    | nil => rfl
    | cons c cs =>
      obtain ⟨hpart, hdigit, -⟩ := hrest.apart (c := c) rfl
      have hline : c ≠ '_' := ne_of_not_wordPart hpart (by decide)
      rw [List.nil_append]
      unfold Lexeme.digitTail
      split <;> simp_all
  | cons d ds ih =>
    rw [List.forall_mem_cons] at hds
    have hline : d ≠ '_' := by
      rintro rfl
      exact absurd hds.1 (by decide)
    rw [List.cons_append]
    unfold Lexeme.digitTail
    split
    · rename_i heq
      exact absurd (List.cons.inj heq).1 hline
    · rename_i heq
      obtain ⟨rfl, rfl⟩ := List.cons.inj heq
      rw [if_pos hds.1, ih hds.2, List.length_cons, Nat.add_comm]
    · rename_i heq
      cases heq

theorem decimal_append {ds rest : List Char} (hds : ∀ c ∈ ds, c.isDigit = true) (hne : ds ≠ [])
    (hrest : Breaks rest) : Lexeme.decimal (ds ++ rest) = ds.length := by
  obtain ⟨d, tail, rfl⟩ := List.exists_cons_of_ne_nil hne
  have hdigits : Lexeme.digits Char.isDigit (d :: tail ++ rest) = (d :: tail).length := by
    rw [List.forall_mem_cons] at hds
    rw [List.cons_append, Lexeme.digits, if_pos hds.1, digitTail_append hds.2 hrest,
      List.length_cons, Nat.add_comm]
  have hpoint : rest.head? ≠ some '.' := fun h => (hrest.apart h).2.2.2 rfl
  have hbig : rest.head? ≠ some 'n' := fun h => ne_of_not_wordPart (hrest.apart h).1 (by decide) rfl
  have hexponent : Lexeme.exponent rest = 0 := by
    unfold Lexeme.exponent
    split
    · have hpart := (hrest.apart rfl).1
      have he := ne_of_not_wordPart hpart (x := 'e') (by decide)
      have hE := ne_of_not_wordPart hpart (x := 'E') (by decide)
      simp [he, hE]
    · rfl
  unfold Lexeme.decimal
  simp only [hdigits, List.drop_left, hexponent]
  simp [hpoint, hbig]

/-- A numeral without a zero in front is one token. -/
theorem number_append {ds rest : List Char} (hds : ∀ c ∈ ds, c.isDigit = true) (hne : ds ≠ [])
    (hzero : ds = ['0'] ∨ ds.head? ≠ some '0') (hrest : Breaks rest) :
    Lexeme.number (ds ++ rest) = ds.length := by
  rw [← decimal_append hds hne hrest]
  unfold Lexeme.number
  split
  · rename_i m cs heq
    rcases hzero with rfl | hzero
    · obtain rfl : rest = m :: cs := (List.cons.inj heq).2
      have hpart := (hrest.apart (c := m) rfl).1
      have hm : m ∉ ['x', 'X', 'o', 'O', 'b', 'B'] := by
        intro hmem
        simp only [List.mem_cons, List.not_mem_nil, or_false] at hmem
        rcases hmem with rfl | rfl | rfl | rfl | rfl | rfl <;> exact absurd hpart (by decide)
      simp only [List.mem_cons, List.not_mem_nil, or_false, not_or] at hm
      rw [heq]
      simp [hm]
    · obtain ⟨d, tail, rfl⟩ := List.exists_cons_of_ne_nil hne
      exact absurd (congrArg some (List.cons.inj heq).1) hzero
  · rfl

namespace Draft

/-- Reading from the first draft to the second adds these nodes and leaves that text. -/
structure Leads (d e : Draft source) (ns : List (Node source)) (rest : List Char) : Prop where
  nodes_eq : e.nodes = ns.reverse ++ d.nodes
  rest_eq : e.rest = rest

variable {d e f : Draft source} {ns ms : List (Node source)} {n : Node source}
  {bs cs rest : List Char} {fuel : Nat}

theorem Leads.trans {after : List Char} (h : Leads d e ns rest) (h' : Leads e f ms after) :
    Leads d f (ns ++ ms) after where
  nodes_eq := by rw [h'.nodes_eq, h.nodes_eq, List.reverse_append, List.append_assoc]
  rest_eq := h'.rest_eq

theorem leads_token (kind : Kind) (h : d.rest = cs ++ rest) :
    Leads d (d.token kind cs.length) [.leaf kind d.cursor.mark (String.ofList cs)] rest where
  nodes_eq := by
    have hpeek : d.cursor.peek cs.length = String.ofList cs := by
      rw [Cursor.peek, show d.cursor.rest = cs ++ rest from h, List.take_left]
    rw [token, hpeek]
    rfl
  rest_eq := by rw [rest_token, h, List.drop_left]

theorem leads_sign {c : Char} (h : d.rest = c :: rest) :
    Leads d (d.sign 1) [.leaf .punctuation d.cursor.mark (String.ofList [c])] rest :=
  leads_token .punctuation (show d.rest = [c] ++ rest from h)

theorem leads_layout (html : Bool) (fuel : Nat) (h : d.rest = bs ++ cs) (hbs : Blank bs)
    (hcs : Solid cs) : Leads d (d.layout html (fuel + 1)) [] cs := by
  have hskip : (d.cursor.skip (Lexeme.space d.rest)).rest = cs := by
    rw [Cursor.rest_skip, h, space_append hbs hcs.space, show d.cursor.rest = bs ++ cs from h,
      List.drop_left]
  have hcomment : Lexeme.comment (rest ⟨d.nodes, d.cursor.skip (Lexeme.space d.rest)⟩) = 0 := by
    rw [rest, hskip, hcs.comment]
  have hhtml : (if html then
      Lexeme.htmlComment (rest ⟨d.nodes, d.cursor.skip (Lexeme.space d.rest)⟩) else 0) = 0 := by
    rw [rest, hskip, hcs.htmlComment, ite_self]
  rw [layout]
  simp only [hcomment, hhtml, bne_self_eq_false, Bool.false_eq_true, if_false]
  exact ⟨rfl, hskip⟩

theorem leads_space (h : d.rest = bs ++ cs) (hbs : Blank bs) (hcs : Solid cs) :
    Leads d d.space [] cs :=
  leads_layout true _ h hbs hcs

theorem leads_gap (h : d.rest = bs ++ cs) (hbs : Blank bs) (hcs : Solid cs) :
    Leads d d.gap [] cs :=
  leads_layout false _ h hbs hcs

theorem leads_space_here (h : d.rest = cs) (hcs : Solid cs) : Leads d d.space [] cs :=
  leads_space (show d.rest = [] ++ cs from h) blank_nil hcs

theorem leads_gap_here (h : d.rest = cs) (hcs : Solid cs) : Leads d d.gap [] cs :=
  leads_gap (show d.rest = [] ++ cs from h) blank_nil hcs

theorem leads_space_blank (h : d.rest = ' ' :: cs) (hcs : Solid cs) : Leads d d.space [] cs :=
  leads_space (show d.rest = [' '] ++ cs from h) blank_one hcs

theorem leads_gap_blank (h : d.rest = ' ' :: cs) (hcs : Solid cs) : Leads d d.gap [] cs :=
  leads_gap (show d.rest = [' '] ++ cs from h) blank_one hcs

theorem Leads.append (h : Leads (fresh d.cursor) e ns rest) : Leads d (d.append e) ns rest where
  nodes_eq := by simp [h.nodes_eq, fresh]
  rest_eq := h.rest_eq

theorem Leads.closed {c : Cursor source} (h : Leads (fresh c) e ns rest) (kind : Kind) :
    Leads (fresh c) (e.close kind c) [.branch kind c.mark e.cursor.mark ns] rest where
  nodes_eq := by simp [Draft.close, h.nodes_eq, fresh]
  rest_eq := h.rest_eq

theorem Leads.close (h : Leads (fresh d.cursor) e ns rest) (kind : Kind) :
    Leads d (d.append (e.close kind d.cursor)) [.branch kind d.cursor.mark e.cursor.mark ns] rest :=
  (h.closed kind).append

/-! ### Nothing comes after an operand -/

theorem rest_gap (h : e.rest = rest) (hrest : Settled rest) : Ends e.gap.rest := by
  obtain @⟨bs, cs, hbs, hcs⟩ := hrest
  rw [(leads_gap h hbs hcs.solid).rest_eq]
  exact hcs

theorem assignment_of_ends (h : Ends cs) : Lexeme.assignment cs = 0 := by
  cases h <;> rfl

theorem binary_of_ends (h : Ends cs) : Lexeme.binary cs = 0 := by
  cases h <;> rfl

theorem choice_of_ends (h : Ends cs) : Lexeme.choice cs = 0 := by
  cases h <;> rfl

theorem idle_of_ends (h : Ends cs) : Idle cs := by
  constructor
  · intro c hc
    cases h <;> cases hc <;> decide
  · cases h <;> rfl

theorem postfixTail_of_idle (calls : Bool) (start : Cursor source) (h : Idle e.gap.rest) :
    postfixTail (fuel + 1) calls start e = e := by
  have hne (c : Char) (hc : c ∈ ['(', '\x60', '[', '.', '?', '+', '-']) (t : List Char) :
      e.gap.rest ≠ c :: t := by
    intro heq
    exact h.head c (by rw [heq]; rfl) hc
  rw [postfixTail]
  split
  all_goals first
    | rfl
    | exact absurd ‹_› (hne _ (by decide) _)

theorem assigned_of_ends (start : Cursor source) (h : Ends e.gap.rest) :
    assigned (fuel + 1) start e = e := by
  rw [assigned, assignment_of_ends h]
  split <;> simp

theorem binaryTail_of_ends (start : Cursor source) (h : Ends e.gap.rest) :
    binaryTail (fuel + 1) start e = e := by
  rw [binaryTail, binary_of_ends h]
  rfl

/-- An operand begins here with no sign and no word of its own. -/
structure Bare (d : Draft source) : Prop where
  sign : ∃ c cs, d.rest = c :: cs ∧ c ∉ ['!', '~', '+', '-']
  word : d.word ∉ ["typeof", "void", "delete", "await", "yield"]

theorem word_eq_empty (hd : d.rest = cs) (h : Lexeme.word cs = 0) : d.word = "" := by
  rw [word, hd, h, Cursor.peek, List.take_zero]

/-- No word begins here. -/
theorem bare_of_head {c : Char} (hd : d.rest = c :: cs) (hc : c ∉ ['!', '~', '+', '-'])
    (hword : Lexeme.word (c :: cs) = 0) : Bare d := by
  refine ⟨⟨c, cs, hd, hc⟩, ?_⟩
  rw [word_eq_empty hd hword]
  decide

theorem operand_of_bare (h : Bare d) : operand (fuel + 1) d = postfixed fuel d := by
  obtain ⟨c, cs, hd, hc⟩ := h.sign
  have hword := h.word
  simp only [List.mem_cons, List.not_mem_nil, or_false, not_or] at hc hword
  obtain ⟨hnot, htilde, hplus, hminus⟩ := hc
  have htwice : (d.beginsWith "++" || d.beginsWith "--") = false := by
    simp [beginsWith, Lexeme.startsWith, List.isPrefixOf, hd, Ne.symm hplus, Ne.symm hminus]
  have honce : ("!~+-".toList.any fun x => d.rest.head? == some x) = false := by
    simp [hd, hnot, htilde, hplus, hminus]
  rw [operand, htwice, honce]
  simp only [Bool.false_eq_true, if_false]
  split <;> simp_all

theorem leads_postfixed_of_ends (hends : Ends (primary (fuel + 1) (fresh d.cursor)).gap.rest)
    (h : Leads (fresh d.cursor) (primary (fuel + 1) (fresh d.cursor)) [n] rest) :
    Leads d (postfixed (fuel + 2) d) [n] rest := by
  rw [postfixed, postfixTail_of_idle true d.cursor (idle_of_ends hends), assigned_of_ends d.cursor hends]
  exact h.append

theorem leads_operand_of_ends (hd : Bare d)
    (hends : Ends (primary (fuel + 1) (fresh d.cursor)).gap.rest)
    (h : Leads (fresh d.cursor) (primary (fuel + 1) (fresh d.cursor)) [n] rest) :
    Leads d (operand (fuel + 3) d) [n] rest := by
  rw [operand_of_bare hd]
  exact leads_postfixed_of_ends hends h

theorem leads_operand (hd : Bare d) (hrest : Settled rest)
    (h : Leads (fresh d.cursor) (primary (fuel + 1) (fresh d.cursor)) [n] rest) :
    Leads d (operand (fuel + 3) d) [n] rest :=
  leads_operand_of_ends hd (rest_gap h.rest_eq hrest) h

theorem leads_expression_of_ends (hends : Ends (operand (fuel + 1) (fresh d.cursor)).gap.rest)
    (h : Leads (fresh d.cursor) (operand (fuel + 1) (fresh d.cursor)) [n] rest) :
    Leads d (expression (fuel + 2) d) [n] rest := by
  rw [expression, binaryTail_of_ends d.cursor hends, choice_of_ends hends]
  exact h.append

theorem leads_expression (hrest : Settled rest)
    (h : Leads (fresh d.cursor) (operand (fuel + 1) (fresh d.cursor)) [n] rest) :
    Leads d (expression (fuel + 2) d) [n] rest :=
  leads_expression_of_ends (rest_gap h.rest_eq hrest) h

theorem leads_of_primary_of_ends (hd : Bare d) (hends : ∀ e : Draft source, e.rest = rest → Ends e.gap.rest)
    (h : Leads (fresh d.cursor) (primary (fuel + 1) (fresh d.cursor)) [n] rest) :
    Leads d (expression (fuel + 4) d) [n] rest := by
  have hbare : Bare (fresh d.cursor) := ⟨hd.sign, hd.word⟩
  have hoperand : Leads (fresh d.cursor) (operand (fuel + 3) (fresh d.cursor)) [n] rest :=
    leads_operand_of_ends hbare (hends _ h.rest_eq) h
  exact leads_expression_of_ends (hends _ hoperand.rest_eq) hoperand

theorem leads_of_primary (hd : Bare d) (hrest : Settled rest)
    (h : Leads (fresh d.cursor) (primary (fuel + 1) (fresh d.cursor)) [n] rest) :
    Leads d (expression (fuel + 4) d) [n] rest :=
  leads_of_primary_of_ends hd (fun _ he => rest_gap he hrest) h

/-- A sign that stands alone is read with the operand behind it. -/
theorem operand_of_sign {c : Char} (hc : c ∈ ['+', '-']) (hd : d.rest = c :: cs)
    (hcs : cs.head? ≠ some c) :
    operand (fuel + 1) d = d.enclose .unary fun b => operand fuel (b.sign 1).space := by
  simp only [List.mem_cons, List.not_mem_nil, or_false] at hc
  have htwice : (d.beginsWith "++" || d.beginsWith "--") = false := by
    cases cs with
    | nil => simp [beginsWith, Lexeme.startsWith, List.isPrefixOf, hd]
    | cons x cs =>
      have hx : x ≠ c := fun heq => hcs (congrArg some heq)
      rcases hc with rfl | rfl
      · simp [beginsWith, Lexeme.startsWith, List.isPrefixOf, hd, Ne.symm hx]
      · simp [beginsWith, Lexeme.startsWith, List.isPrefixOf, hd, Ne.symm hx]
  have honce : ("!~+-".toList.any fun x => d.rest.head? == some x) = true := by
    rcases hc with rfl | rfl
    · simp [hd]
    · simp [hd]
  rw [operand, htwice, honce]
  rfl

/-- An operand under a sign. -/
theorem leads_signed {P : Node source → Prop} {c : Char} (hc : c ∈ ['+', '-']) (hd : d.rest = c :: cs)
    (hcs : cs.head? ≠ some c) (hsolid : Solid cs) (hrest : Settled rest)
    (h : ∀ e : Draft source, e.rest = cs →
      ∃ n, P n ∧ Leads e (operand (fuel + 1) e) [n] rest) :
    ∃ b m n, P n ∧ Leads d (expression (fuel + 3) d)
      [.branch .unary d.cursor.mark b [.leaf .punctuation m (String.ofList [c]), n]] rest := by
  have hd : (fresh d.cursor).rest = c :: cs := hd
  have hsign := leads_sign hd
  have hspace := hsign.trans (leads_space_here hsign.rest_eq hsolid)
  obtain ⟨n, hn, hoperand⟩ := h _ hspace.rest_eq
  have hunary : operand (fuel + 2) (fresh d.cursor) = (fresh d.cursor).append
      ((operand (fuel + 1) (sign 1 (fresh d.cursor)).space).close .unary (fresh d.cursor).cursor) :=
    operand_of_sign hc hd hcs
  have hinner := (hspace.trans hoperand).close (d := fresh d.cursor) .unary
  rw [← hunary] at hinner
  exact ⟨_, _, n, hn, leads_expression hrest hinner⟩

/-- A word of letters that is an operand of its own. -/
theorem leads_wordToken (kind : Kind) {c : Char} {w : List Char} (hc : c.isDigit = false)
    (hw : ∀ x ∈ c :: w, Lexeme.isWordPart x = true) (hrest : Stops rest)
    (hd : d.rest = c :: w ++ rest) :
    d.word = String.ofList (c :: w) ∧
      Leads d (d.wordToken kind) [.leaf kind d.cursor.mark (String.ofList (c :: w))] rest := by
  have hlength : Lexeme.word d.rest = (c :: w).length := by
    rw [hd]
    exact word_append hc hw hrest
  constructor
  · rw [word, hlength, Cursor.peek, show d.cursor.rest = _ from hd, List.take_left]
  · rw [wordToken, hlength]
    exact leads_token kind hd

/-- A number begins with a digit or a point. -/
theorem number_eq_zero {c : Char} (hdigit : c.isDigit = false) (hpoint : c ≠ '.') (cs : List Char) :
    Lexeme.number (c :: cs) = 0 := by
  have hdigits : Lexeme.digits Char.isDigit (c :: cs) = 0 := by
    rw [Lexeme.digits, hdigit]
    rfl
  have hdecimal : Lexeme.decimal (c :: cs) = 0 := by
    unfold Lexeme.decimal
    simp only [hdigits, if_true]
    split
    · rename_i heq
      exact absurd (List.cons.inj heq).1 hpoint
    · rfl
  rw [Lexeme.number.eq_def]
  split
  · rename_i heq
    obtain rfl := (List.cons.inj heq).1
    exact absurd hdigit (by decide)
  · exact hdecimal

theorem number_of_wordStart {c : Char} (hc : Lexeme.isWordStart c = true) (cs : List Char) :
    Lexeme.number (c :: cs) = 0 := by
  simp only [Lexeme.isWordStart, Bool.and_eq_true, Bool.not_eq_true'] at hc
  exact number_eq_zero hc.2 (ne_of_not_wordPart (by decide) hc.1).symm cs

/-- An operand that begins with a letter is a word. -/
theorem primary_of_wordStart {c : Char} (hd : d.rest = c :: cs) (hc : Lexeme.isWordStart c = true)
    (hword : Lexeme.word d.rest ≠ 0) : primary (fuel + 1) d = worded fuel d := by
  have hnumber : Lexeme.number d.rest = 0 := hd ▸ number_of_wordStart hc cs
  have hne {x : Char} (hx : Lexeme.isWordStart x = false) (t : List Char) : d.rest ≠ x :: t := by
    intro heq
    rw [hd] at heq
    obtain rfl := (List.cons.inj heq).1
    exact Bool.false_ne_true (hx.symm.trans hc)
  rw [primary]
  split
  all_goals try exact absurd ‹_› (hne (by decide) _)
  rw [hnumber, if_neg (by decide), if_pos (bne_iff_ne.mpr hword)]

theorem mem_digits {c : Char} (h : c.isDigit = true) :
    c ∈ ['0', '1', '2', '3', '4', '5', '6', '7', '8', '9'] := by
  have digits : ∀ k < 10, Char.ofNat (48 + k) ∈ ['0', '1', '2', '3', '4', '5', '6', '7', '8', '9'] := by
    decide
  simp only [Char.isDigit, Bool.and_eq_true, decide_eq_true_eq] at h
  have hle : 48 ≤ c.toNat := h.1
  have hge : c.toNat ≤ 57 := h.2
  have hc := digits (c.toNat - 48) (by omega)
  rwa [Nat.add_sub_cancel' hle, Char.ofNat_toNat] at hc

theorem solid_of_isDigit {c : Char} (h : c.isDigit = true) (cs : List Char) : Solid (c :: cs) := by
  have hc := mem_digits h
  simp only [List.mem_cons, List.not_mem_nil, or_false] at hc
  rcases hc with rfl | rfl | rfl | rfl | rfl | rfl | rfl | rfl | rfl | rfl <;>
    exact ⟨rfl, rfl, rfl⟩

/-- A number that begins with a digit is an operand of its own. -/
theorem leads_number (fuel : Nat) {c : Char} {tail : List Char} (hc : c.isDigit = true)
    (hlength : Lexeme.number (c :: tail ++ rest) = (c :: tail).length) (hrest : Settled rest)
    (hd : d.rest = c :: tail ++ rest) :
    Leads d (operand (fuel + 3) d) [.leaf .number d.cursor.mark (String.ofList (c :: tail))] rest := by
  have htoken : Leads (fresh d.cursor) (fresh d.cursor).number
      [.leaf .number d.cursor.mark (String.ofList (c :: tail))] rest := by
    rw [number, show Lexeme.number (fresh d.cursor).rest = (c :: tail).length from hd ▸ hlength]
    exact leads_token (d := fresh d.cursor) .number hd
  have hc := mem_digits hc
  simp only [List.mem_cons, List.not_mem_nil, or_false] at hc
  have hbare : Bare d := by
    rcases hc with rfl | rfl | rfl | rfl | rfl | rfl | rfl | rfl | rfl | rfl <;>
      exact bare_of_head hd (by decide) rfl
  have hprimary : primary (fuel + 1) (fresh d.cursor) = (fresh d.cursor).number := by
    have hd : (fresh d.cursor).rest = c :: (tail ++ rest) := hd
    have hnumber : Lexeme.number (c :: (tail ++ rest)) = tail.length + 1 := hlength
    rcases hc with rfl | rfl | rfl | rfl | rfl | rfl | rfl | rfl | rfl | rfl <;>
      simp [primary, hd, hnumber]
  exact leads_operand hbare hrest (hprimary ▸ htoken)

/-- A numeral is an operand of its own. -/
theorem leads_numeral (fuel : Nat) {ds : List Char} (hds : ∀ c ∈ ds, c.isDigit = true) (hne : ds ≠ [])
    (hzero : ds = ['0'] ∨ ds.head? ≠ some '0') (hrest : Settled rest) (hd : d.rest = ds ++ rest) :
    Leads d (operand (fuel + 3) d) [.leaf .number d.cursor.mark (String.ofList ds)] rest := by
  have hlength := number_append hds hne hzero hrest.breaks
  obtain ⟨c, tail, rfl⟩ := List.exists_cons_of_ne_nil hne
  exact leads_number fuel (hds c List.mem_cons_self) hlength hrest hd

/-! ### Lists in brackets -/

/-- A text at which an entry of a list begins that is not spread. -/
structure Begins (cs : List Char) : Prop where
  solid : Solid cs
  head : ∃ c t, cs = c :: t ∧ c ∉ [',', ']', '\x7d', ')', ';', '.']

theorem solid_closing (l : Listing) (rest : List Char) : Solid (l.closing :: rest) := by
  cases l <;> exact ⟨rfl, rfl, rfl⟩

theorem entries_of_closing (fuel : Nat) (l : Listing) (h : d.space.rest = l.closing :: rest) :
    entries (fuel + 1) l d = d.space.sign 1 := by
  rw [entries]
  simp only [h, beq_self_eq_true, if_true]

theorem closing_ne_comma (l : Listing) : (',' == l.closing) = false := by
  cases l <;> rfl

theorem entries_of_comma (fuel : Nat) (l : Listing) (h : d.space.rest = ',' :: rest) :
    entries (fuel + 1) l d = entries fuel l (d.space.sign 1) := by
  rw [entries]
  simp only [h, closing_ne_comma, beq_self_eq_true, Bool.false_eq_true, if_false, if_true]

theorem entries_of_other (l : Listing) {c : Char} {t : List Char} (h : d.space.rest = c :: t)
    (hc : c ∉ [',', ']', '\x7d', ')', ';']) :
    entries (fuel + 1) l d = entriesAfter fuel l (entry fuel l d.space) := by
  simp only [List.mem_cons, List.not_mem_nil, or_false, not_or] at hc
  have hclosing : (c == l.closing) = false := by
    cases l <;> simp [Listing.closing, hc]
  have hstops : stopsHere (c :: t) = false := by
    simp [stopsHere, hc]
  rw [entries]
  simp [h, hclosing, hc.1, hstops]

theorem leads_entries_close (fuel : Nat) (l : Listing) (h : d.rest = bs ++ l.closing :: rest)
    (hbs : Blank bs) : ∃ m, Leads d (entries (fuel + 1) l d)
      [.leaf .punctuation m (String.ofList [l.closing])] rest := by
  have hspace := leads_space h hbs (solid_closing l rest)
  rw [entries_of_closing fuel l hspace.rest_eq]
  exact ⟨d.space.cursor.mark, hspace.trans (leads_sign hspace.rest_eq)⟩

theorem entries_of_head (l : Listing) {c : Char} {t : List Char} (h : d.rest = bs ++ c :: t)
    (hbs : Blank bs) (hsolid : Solid (c :: t)) (hc : c ∉ [',', ']', '\x7d', ')', ';']) :
    entries (fuel + 1) l d = entriesAfter fuel l (entry fuel l d.space) :=
  entries_of_other l (leads_space h hbs hsolid).rest_eq hc

theorem entries_of_begins (l : Listing) (h : d.rest = bs ++ cs) (hbs : Blank bs)
    (hcs : Begins cs) :
    entries (fuel + 1) l d = entriesAfter fuel l (entry fuel l d.space) := by
  obtain ⟨c, t, rfl, hc⟩ := hcs.head
  exact entries_of_head l h hbs hcs.solid fun hmem => hc (List.mem_append_left ['.'] hmem)

theorem entriesAfter_of_closing (fuel : Nat) (l : Listing) (h : d.gap.rest = l.closing :: rest) :
    entriesAfter (fuel + 1) l d = d.gap.sign 1 := by
  rw [entriesAfter]
  simp only [h, beq_self_eq_true, if_true]

theorem entriesAfter_of_comma (fuel : Nat) (l : Listing) (h : d.gap.rest = ',' :: rest) :
    entriesAfter (fuel + 1) l d = entries fuel l (d.gap.sign 1) := by
  rw [entriesAfter]
  simp only [h, closing_ne_comma, beq_self_eq_true, Bool.false_eq_true, if_false, if_true]

theorem leads_entriesAfter_close (fuel : Nat) (l : Listing)
    (h : d.rest = bs ++ l.closing :: rest) (hbs : Blank bs) : ∃ m, Leads d (entriesAfter (fuel + 1) l d)
      [.leaf .punctuation m (String.ofList [l.closing])] rest := by
  have hgap := leads_gap h hbs (solid_closing l rest)
  rw [entriesAfter_of_closing fuel l hgap.rest_eq]
  exact ⟨d.gap.cursor.mark, hgap.trans (leads_sign hgap.rest_eq)⟩

/-- A list may end before its first entry and after each one. -/
theorem leads_listEnd (first : Bool) (fuel : Nat) (l : Listing)
    (h : d.rest = bs ++ l.closing :: rest) (hbs : Blank bs) : ∃ m,
      Leads d (if first then entries (fuel + 1) l d else entriesAfter (fuel + 1) l d)
        [.leaf .punctuation m (String.ofList [l.closing])] rest := by
  cases first with
  | true => exact leads_entries_close fuel l h hbs
  | false => exact leads_entriesAfter_close fuel l h hbs

/-- After a comma the list goes on. -/
theorem leads_entriesAfter_comma {P : List (Node source) → Prop} (l : Listing)
    (h : d.rest = ',' :: cs)
    (hentries : ∀ e : Draft source, e.rest = cs →
      ∃ ns, P ns ∧ Leads e (entries fuel l e) ns rest) :
    ∃ m ns, P ns ∧ Leads d (entriesAfter (fuel + 1) l d) (.leaf .punctuation m "," :: ns) rest := by
  have hgap := leads_gap_here h (Ends.comma cs).solid
  have hsign := hgap.trans (leads_sign hgap.rest_eq)
  obtain ⟨ns, hns, hentries⟩ := hentries _ hsign.rest_eq
  rw [entriesAfter_of_comma fuel l hgap.rest_eq]
  exact ⟨d.gap.cursor.mark, ns, hns, hsign.trans hentries⟩

/-- A list behind its opening sign. -/
theorem leads_bracket {c : Char} {kind : Kind} (l : Listing) (hd : d.rest = c :: cs) (hbare : Bare d)
    (hends : ∀ e : Draft source, e.rest = rest → Ends e.gap.rest)
    (hprimary : primary (fuel + 1) (fresh d.cursor) =
      (fresh d.cursor).enclose kind fun b => entries fuel l (b.sign 1))
    (h : Leads (sign 1 (fresh d.cursor)) (entries fuel l (sign 1 (fresh d.cursor))) ns rest) :
    ∃ a b m, Leads d (expression (fuel + 4) d)
      [.branch kind a b (.leaf .punctuation m (String.ofList [c]) :: ns)] rest := by
  have hsign := leads_sign (d := fresh d.cursor) hd
  have hlisted : Leads (fresh d.cursor)
      ((fresh d.cursor).enclose kind fun b => entries fuel l (b.sign 1)) _ rest :=
    Leads.close (d := fresh d.cursor) (hsign.trans h) kind
  rw [← hprimary] at hlisted
  exact ⟨_, _, _, leads_of_primary_of_ends hbare hends hlisted⟩

theorem leads_listed {P : List (Node source) → Prop} {c : Char} {kind : Kind} (l : Listing)
    (hd : d.rest = c :: cs) (hbare : Bare d) (hrest : Settled rest)
    (hprimary : primary (fuel + 1) (fresh d.cursor) =
      (fresh d.cursor).enclose kind fun b => entries fuel l (b.sign 1))
    (hentries : ∀ e : Draft source, e.rest = cs →
      ∃ ns, P ns ∧ Leads e (entries fuel l e) ns rest) :
    ∃ a b m ns, P ns ∧ Leads d (expression (fuel + 4) d)
      [.branch kind a b (.leaf .punctuation m (String.ofList [c]) :: ns)] rest := by
  have hsign := leads_sign (d := fresh d.cursor) hd
  obtain ⟨ns, hns, h⟩ := hentries _ hsign.rest_eq
  obtain ⟨a, b, m, hleads⟩ := leads_bracket l hd hbare (fun _ he => rest_gap he hrest) hprimary h
  exact ⟨a, b, m, ns, hns, hleads⟩

theorem beginsWith_dots (h : Begins d.rest) : d.beginsWith "..." = false := by
  obtain ⟨c, t, hd, hc⟩ := h.head
  simp only [List.mem_cons, List.not_mem_nil, or_false, not_or] at hc
  simp [beginsWith, Lexeme.startsWith, List.isPrefixOf, hd, Ne.symm hc.2.2.2.2.2]

/-! ### Members with a quoted key or a number -/

/-- A member begins with its key, if that begins with no word and no star. -/
theorem member_of_key {c : Char} (hd : d.rest = c :: cs) (hc : c ≠ '*') (hword : Lexeme.word (c :: cs) = 0)
    (hproperty : startsProperty (c :: cs) = true) :
    member (fuel + 1) d =
      d.append (memberTail fuel d.cursor (propertyName fuel (fresh d.cursor))) := by
  have hstar : d.beginsWith "*" = false := by
    simp [beginsWith, Lexeme.startsWith, List.isPrefixOf, hd, Ne.symm hc]
  have hnone : d.word = "" := word_eq_empty hd hword
  rw [member, hstar, hnone, hd, hproperty]
  rfl

theorem member_of_quote (hd : d.rest = '\x22' :: cs) :
    member (fuel + 1) d =
      d.append (memberTail fuel d.cursor (propertyName fuel (fresh d.cursor))) :=
  member_of_key hd (by decide) rfl (by simp [startsProperty])

theorem propertyName_of_quote (hd : d.rest = '\x22' :: cs) :
    propertyName (fuel + 1) d = d.quoted '\x22' := by
  rw [propertyName]
  simp only [hd]

/-- What a number begins with. -/
theorem mem_numberSigns {c : Char} (hc : c.isDigit = true ∨ c = '.') :
    c ∈ ['0', '1', '2', '3', '4', '5', '6', '7', '8', '9', '.'] := by
  rcases hc with hc | rfl
  · exact List.mem_append_left ['.'] (mem_digits hc)
  · decide

theorem word_of_number {c : Char} (hc : c.isDigit = true ∨ c = '.') (cs : List Char) :
    Lexeme.word (c :: cs) = 0 := by
  have hmem := mem_numberSigns hc
  simp only [List.mem_cons, List.not_mem_nil, or_false] at hmem
  rcases hmem with rfl | rfl | rfl | rfl | rfl | rfl | rfl | rfl | rfl | rfl | rfl <;> rfl

theorem member_of_number {c : Char} (hd : d.rest = c :: cs) (hc : c.isDigit = true ∨ c = '.')
    (hnumber : Lexeme.number (c :: cs) ≠ 0) :
    member (fuel + 1) d =
      d.append (memberTail fuel d.cursor (propertyName fuel (fresh d.cursor))) := by
  have hstar : c ≠ '*' := by
    rintro rfl
    exact absurd hc (by decide)
  exact member_of_key hd hstar (word_of_number hc cs) (by simp [startsProperty, hnumber])

theorem solid_of_number {c : Char} (hc : c.isDigit = true ∨ c = '.') (cs : List Char) :
    Solid (c :: cs) := by
  rcases hc with hc | rfl
  · exact solid_of_isDigit hc cs
  · exact ⟨rfl, rfl, rfl⟩

theorem dots_of_number {c : Char} (hc : c.isDigit = true ∨ c = '.')
    (hnumber : Lexeme.number (c :: cs) ≠ 0) : Lexeme.startsWith "..." (c :: cs) = false := by
  have hnone (t : List Char) : Lexeme.number ('.' :: '.' :: t) = 0 := rfl
  rcases hc with hc | rfl
  · have hpoint : '.' ≠ c := by
      rintro rfl
      cases hc
    simp [Lexeme.startsWith, List.isPrefixOf, hpoint]
  · cases cs with
    | nil => rfl
    | cons x t =>
      have hpoint : '.' ≠ x := by
        rintro rfl
        exact hnumber (hnone t)
      simp [Lexeme.startsWith, List.isPrefixOf, hpoint]

/-- A number is the name of a property. -/
theorem leads_propertyName {c : Char} {tail : List Char} (fuel : Nat) (hc : c.isDigit = true ∨ c = '.')
    (hlength : Lexeme.number (c :: tail ++ rest) = (c :: tail).length)
    (hd : d.rest = c :: tail ++ rest) :
    Leads d (propertyName (fuel + 1) d)
      [.leaf .number d.cursor.mark (String.ofList (c :: tail))] rest := by
  have hnumber : Lexeme.number d.rest = (c :: tail).length := hd ▸ hlength
  have hne {x : Char} (hx : x ∉ ['0', '1', '2', '3', '4', '5', '6', '7', '8', '9', '.'])
      (t : List Char) : d.rest ≠ x :: t := by
    intro heq
    rw [hd] at heq
    obtain rfl := (List.cons.inj heq).1
    exact hx (mem_numberSigns hc)
  have hname : propertyName (fuel + 1) d = d.number := by
    rw [propertyName]
    split
    all_goals try exact absurd ‹_› (hne (by decide) _)
    rw [hnumber]
    rfl
  rw [hname, number, hnumber]
  exact leads_token .number hd

theorem memberTail_of_colon (start : Cursor source) (h : e.space.rest = ':' :: cs) :
    memberTail (fuel + 1) start e =
      (expression fuel (e.space.sign 1).space).close .pair start := by
  rw [memberTail]
  simp only [h]

/-! ### One value in parentheses -/

theorem offset_add_byteLength (c : Cursor source) :
    c.offset + byteLength c.rest = byteLength source := by
  obtain ⟨before, hsource, hoffset⟩ := c.split
  rw [hoffset, ← byteLength_append, ← hsource]

/-- A node that may stand in parentheses. -/
structure Single (n : Node source) : Prop where
  significant : n.kind.isSignificant = true
  html : n.kind ≠ .htmlComment
  spread : n.kind ≠ .spread
  text : n.text ≠ ","

theorem asParenthesized_of_single {m m' : Mark source} (start : Cursor source) (hn : Single n)
    (h : e.nodes.reverse = [.leaf .punctuation m "(", n, .leaf .punctuation m' ")"]) :
    e.asParenthesized start = e.close .parenthesized start := by
  have hsign (m : Mark source) (s : String) :
      (Node.leaf .punctuation m s).kind.isSignificant = false := rfl
  have hsignText (m : Mark source) (s : String) : (Node.leaf .punctuation m s).text = s := rfl
  have hfilter : e.nodes.reverse.filter (fun n => n.kind.isSignificant && n.kind != .htmlComment) =
      [n] := by
    simp [h, hsign, hn.significant, hn.html]
  have hcomma : (n.kind == .spread || e.nodes.reverse.any fun n => n.text == ",") = false := by
    simp [h, hsignText, hn.spread, hn.text]
  unfold asParenthesized
  simp only [hfilter, hcomma, Bool.false_eq_true, if_false]

/-- What makes up a text that is one entry in parentheses, with white space before the closing
one. -/
structure Enclosed (source cs : List Char) : Prop where
  eq : source = '(' :: (cs ++ ['\n', ')'])
  begins : ∀ rest, Begins (cs ++ rest)

/-- One entry in parentheses, with no arrow after them. -/
theorem leads_primary_parenthesized {P : Node source → Prop} {after : List Char}
    (hd : d.rest = '(' :: (cs ++ (bs ++ ')' :: rest)))
    (hbegins : Begins (cs ++ (bs ++ ')' :: rest))) (hbs : Blank bs)
    (hread : ∀ e : Draft source, e.rest = cs ++ (bs ++ ')' :: rest) →
      ∃ n, (Single n ∧ P n) ∧ Leads e (expression fuel e) [n] (bs ++ ')' :: rest))
    (hgap : ∀ e : Draft source, e.rest = rest → e.gap.rest = after)
    (hafter : Lexeme.startsWith "=>" after = false) :
    ∃ b m n m', b.offset + byteLength rest = byteLength source ∧ Single n ∧ P n ∧
      Leads d (primary (fuel + 4) d)
        [.branch .parenthesized d.cursor.mark b
          [.leaf .punctuation m "(", n, .leaf .punctuation m' ")"]] rest := by
  have hsign := leads_sign (d := fresh d.cursor) hd
  have hspace := hsign.trans (leads_space_here hsign.rest_eq hbegins.solid)
  obtain ⟨n, ⟨hn, hP⟩, hleads⟩ := hread _ hspace.rest_eq
  have hvalue := hspace.trans hleads
  obtain ⟨m', hclose⟩ := leads_entriesAfter_close fuel .values hvalue.rest_eq hbs
  have hall := hvalue.trans hclose
  have hentry : entry (fuel + 1) .values (sign 1 (fresh d.cursor)).space =
      expression fuel (sign 1 (fresh d.cursor)).space := by
    rw [entry, beginsWith_dots (hspace.rest_eq ▸ hbegins), if_neg Bool.false_ne_true]
    rintro ⟨⟩
  rw [← hentry, ← entries_of_begins .values (show _ = [] ++ _ from hsign.rest_eq) blank_nil hbegins]
    at hall
  have harrow : (entries (fuel + 2) .values (sign 1 (fresh d.cursor))).gap.beginsWith "=>" = false := by
    rw [beginsWith, hgap _ hall.rest_eq]
    exact hafter
  have hnodes : (entries (fuel + 2) .values (sign 1 (fresh d.cursor))).nodes.reverse =
      [.leaf .punctuation d.cursor.mark "(", n, .leaf .punctuation m' ")"] := by
    rw [hall.nodes_eq, show (fresh d.cursor).nodes = [] from rfl, List.append_nil,
      List.reverse_reverse]
    rfl
  have hsingle := asParenthesized_of_single d.cursor hn hnodes
  have hparenthesized := hall.close .parenthesized
  rw [← hsingle] at hparenthesized
  have hprimary : primary (fuel + 4) d = d.append
      ((entries (fuel + 2) .values (sign 1 (fresh d.cursor))).asParenthesized d.cursor) := by
    rw [primary]
    simp only [hd]
    rw [parenthesized]
    exact if_neg (ne_true_of_eq_false harrow)
  rw [← hprimary] at hparenthesized
  have hoffset := offset_add_byteLength
    (entries (fuel + 2) .values (sign 1 (fresh d.cursor))).cursor
  rw [show (entries (fuel + 2) .values (sign 1 (fresh d.cursor))).cursor.rest = rest from hall.rest_eq]
    at hoffset
  exact ⟨_, _, n, _, hoffset, hn, hP, hparenthesized⟩

theorem leads_parenthesized {P : Node source → Prop} (h : Enclosed source cs)
    (hd : d.rest = source)
    (hread : ∀ e : Draft source, e.rest = cs ++ ['\n', ')'] →
      ∃ n, (Single n ∧ P n) ∧ Leads e (expression fuel e) [n] ['\n', ')']) :
    ∃ b m n m', b.offset = byteLength source ∧ Single n ∧ P n ∧
      Leads d (expression (fuel + 7) d)
        [.branch .parenthesized d.cursor.mark b
          [.leaf .punctuation m "(", n, .leaf .punctuation m' ")"]] [] := by
  have hline : Blank ['\n'] := List.forall_mem_singleton.mpr (.inr rfl)
  have hopen : d.rest = '(' :: (cs ++ (['\n'] ++ ')' :: [])) := hd.trans h.eq
  obtain ⟨b, m, n, m', hoffset, hn, hP, hprimary⟩ := leads_primary_parenthesized
    (d := fresh d.cursor) hopen (h.begins _) hline hread
    (fun e he => (leads_gap_here he Ends.nil.solid).rest_eq) rfl
  have hbare : Bare d := bare_of_head hopen (by decide) rfl
  exact ⟨b, m, n, m', hoffset, hn, hP, leads_of_primary hbare Ends.nil.settled hprimary⟩

theorem leads_expressions (h : Leads (fresh d.cursor) (expression (fuel + 1) (fresh d.cursor)) [n] rest)
    (hrest : Solid rest) (hcomma : Lexeme.startsWith "," rest = false) :
    Leads d (expressions (fuel + 2) d) [n] rest := by
  have hend := (leads_gap_here h.rest_eq hrest).rest_eq
  have htail : expressionsTail (fuel + 1) d.cursor (expression (fuel + 1) (fresh d.cursor)) =
      expression (fuel + 1) (fresh d.cursor) := by
    rw [expressionsTail, beginsWith, hend, hcomma]
    rfl
  rw [expressions, htail]
  exact h.append

/-- A statement that begins with a parenthesis is an expression. -/
theorem statement_of_parenthesis (hd : d.rest = '(' :: cs) :
    statement (fuel + 2) d = d.sentence .expressionStatement (expressions fuel) := by
  have hword : d.word = "" := word_eq_empty hd rfl
  have hplain : statement (fuel + 2) d = plain (fuel + 1) d := by
    rw [statement]
    simp only [hd, hword]
    rfl
  have hnone : Lexeme.word ('(' :: cs) = 0 := rfl
  have hstarts : startsOperand ('(' :: cs) = true := by simp [startsOperand]
  rw [hplain, plain]
  simp only [hd, hnone, hstarts]
  rfl

theorem leads_statement (hd : d.rest = '(' :: cs)
    (h : Leads (fresh d.cursor) (expression (fuel + 1) (fresh d.cursor)) [n] []) :
    ∃ a b, Leads d (statement (fuel + 4) d) [.branch .expressionStatement a b [n]] [] := by
  have hexpressions := leads_expressions (d := fresh d.cursor) h Ends.nil.solid rfl
  have hend := (leads_gap_here hexpressions.rest_eq Ends.nil.solid).rest_eq
  have hsemicolon : (expressions (fuel + 2) (fresh d.cursor)).semicolon =
      (true, expressions (fuel + 2) (fresh d.cursor)) := by
    simp [semicolon, endsHere, beginsWith, Lexeme.startsWith, hend]
  have hsentence : statement (fuel + 4) d =
      d.append ((expressions (fuel + 2) (fresh d.cursor)).close .expressionStatement d.cursor) := by
    rw [statement_of_parenthesis hd]
    simp only [sentence, hsemicolon]
    rfl
  rw [hsentence]
  exact ⟨_, _, hexpressions.close .expressionStatement⟩

end Draft

open Draft

theorem leads_programTail (steps : Nat) {d : Draft source} {n : Node source} {cs : List Char}
    {fuel : Nat} (hd : d.rest = '(' :: cs)
    (h : Leads d.space (statement fuel d.space) [n] []) :
    Leads d (programTail (steps + 2) fuel d) [n] [] := by
  have hspace := leads_space_here hd ⟨rfl, rfl, rfl⟩
  have hend := leads_space_here h.rest_eq Ends.nil.solid
  rw [programTail]
  simp only [hspace.rest_eq]
  rw [programTail]
  simp only [hend.rest_eq]
  exact hspace.trans (h.trans hend)

theorem parse_of_programTail {rest : List Char} {ns : List (Node source)}
    (hsource : Lexeme.startsWith "#!" source = false)
    (h : Leads (fresh (Cursor.start source))
      (programTail (source.length + 1) (16 * source.length + 64) (fresh (Cursor.start source)))
      ns rest) :
    ∃ a b, parse source = .branch .program a b ns := by
  have hbang : (fresh (Cursor.start source)).beginsWith "#!" = false := hsource
  have hnodes := h.nodes_eq
  rw [show (fresh (Cursor.start source)).nodes = [] from rfl, List.append_nil] at hnodes
  refine ⟨(Cursor.start source).mark, Cursor.mark (programTail (source.length + 1)
    (16 * source.length + 64) (fresh (Cursor.start source))).cursor, ?_⟩
  simp only [parse, hbang, Bool.false_eq_true, if_false, hnodes, List.reverse_reverse]

/-- A script that is one expression. -/
theorem parse_of_expression {cs : List Char} {P : Node source → Prop} (hsource : source = '(' :: cs)
    (hread : ∀ d : Draft source, d.rest = source →
      ∃ n, P n ∧ Leads d (expression (16 * source.length + 61) d) [n] []) :
    ∃ a b a' b' n, P n ∧
      parse source = .branch .program a b [.branch .expressionStatement a' b' [n]] := by
  have hstart : (fresh (Cursor.start source)).rest = '(' :: cs := hsource
  have hspace := leads_space_here hstart ⟨rfl, rfl, rfl⟩
  have hrest : (fresh (Cursor.start source)).space.rest = source := hspace.rest_eq.trans hsource.symm
  obtain ⟨n, hn, hvalue⟩ := hread (fresh (fresh (Cursor.start source)).space.cursor) hrest
  obtain ⟨a', b', hstatement⟩ := leads_statement hspace.rest_eq hvalue
  have hlength : source.length ≠ 0 := by
    rw [hsource]
    exact Nat.succ_ne_zero cs.length
  obtain ⟨steps, hsteps⟩ : ∃ steps, source.length + 1 = steps + 2 := ⟨source.length - 1, by omega⟩
  have hprogram := leads_programTail steps hstart hstatement
  rw [← hsteps] at hprogram
  have hbang : Lexeme.startsWith "#!" source = false := by
    rw [hsource]
    rfl
  obtain ⟨a, b, hparse⟩ := parse_of_programTail hbang hprogram
  exact ⟨a, b, a', b', n, hn, hparse⟩

/-- A script that is one value in parentheses. -/
theorem parse_enclosed {cs : List Char} {P : Node source → Prop} (h : Enclosed source cs)
    (hread : ∀ d : Draft source, d.rest = cs ++ ['\n', ')'] → ∃ n, (Single n ∧ P n) ∧
      Leads d (expression (16 * source.length + 54) d) [n] ['\n', ')']) :
    ∃ a b a' b' a'' b'' m n m', a''.offset = 0 ∧ b''.offset = byteLength source ∧ Single n ∧ P n ∧
      parse source = .branch .program a b [.branch .expressionStatement a' b'
        [.branch .parenthesized a'' b''
          [.leaf .punctuation m "(", n, .leaf .punctuation m' ")"]]] := by
  obtain ⟨a, b, a', b', _, ⟨a'', b'', m, n, m', hstart, hstop, hn, hP, rfl⟩, hparse⟩ :=
    parse_of_expression (P := fun x => ∃ a'' b'' m n m', a''.offset = 0 ∧
      b''.offset = byteLength source ∧ Single n ∧ P n ∧ x = .branch .parenthesized a'' b''
        [.leaf .punctuation m "(", n, .leaf .punctuation m' ")"]) h.eq fun d hd => by
      obtain ⟨b'', m, n, m', hstop, hn, hP, hvalue⟩ := leads_parenthesized h hd hread
      have hoffset := offset_add_byteLength d.cursor
      rw [show d.cursor.rest = source from hd] at hoffset
      have hfront : d.cursor.mark.offset = 0 := by
        show d.cursor.offset = 0
        omega
      exact ⟨_, ⟨_, b'', m, n, m', hfront, hstop, hn, hP, rfl⟩, hvalue⟩
  exact ⟨a, b, a', b', a'', b'', m, n, m', hstart, hstop, hn, hP, hparse⟩

end Workyard.Script
