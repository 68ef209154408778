import Workyard.Proofs.Options.Forms

/-!
# Quiet scripts

A script whose statements are quiet is quiet, with comments between them.
-/

namespace Workyard.Options

set_option autoImplicit false

open Script Script.Node Script.Draft

variable {source : List Char} {callee : String} {levels levels' fuel : Nat}
  {w p cs rest : List Char} {d e : Draft source} {n : Node source}

/-! ### Assignments -/

/-- A node that is assigned to, and quiet as a pattern. -/
def QuietTarget (callee : String) (n : Node source) : Prop :=
  n.isTarget = true ∧ Quiet callee n.toPattern

theorem chain_name_target (hw : IsName w) : Chain (QuietTarget callee : Node source → Prop) 3 w :=
  (chain_name hw).imp fun n hn => by
    obtain ⟨m, rfl⟩ := hn
    exact ⟨rfl, .leaf rfl⟩

theorem leads_propertyAfter (hp : IsName p) (hrest : Stops rest) (hd : d.rest = '.' :: (p ++ rest)) :
    ∃ m m', Leads d (propertyAfter d 1)
      [.leaf .punctuation m ".", .leaf .propertyName m' (String.ofList p)] rest := by
  have hsign := leads_sign hd
  have hgap := hsign.trans (leads_gap_here hsign.rest_eq (hp.begins rest).solid)
  obtain ⟨-, hproperty⟩ := leads_word .propertyName hp hrest hgap.rest_eq
  obtain ⟨c, t, rfl, hdigit⟩ := hp.exists_cons
  have hlength : Lexeme.word (d.sign 1).gap.rest ≠ 0 := by
    rw [hgap.rest_eq, word_append hdigit hp.parts hrest]
    exact Nat.succ_ne_zero _
  have hprivate (xs : List Char) (heq : (d.sign 1).gap.rest = '#' :: xs) : False := by
    rw [hgap.rest_eq] at heq
    obtain rfl := (List.cons.inj heq).1
    exact absurd (hp.parts _ List.mem_cons_self) (by decide)
  have hafter : propertyAfter d 1 = (d.sign 1).gap.wordToken .propertyName := by
    unfold propertyAfter
    simp only [if_neg Nat.one_ne_zero]
    exact if_neg hlength
  rw [hafter]
  exact ⟨_, _, hgap.trans hproperty⟩

/-- A member of a name. -/
theorem chain_member (hw : IsName w) (hp : IsName p) :
    Chain (QuietTarget callee : Node source → Prop) 4 (w ++ '.' :: p) where
  begins rest := by
    rw [List.append_assoc]
    exact hw.begins _
  bare hd _ := by
    rw [List.append_assoc] at hd
    exact bare_of_name hw (by rintro c ⟨⟩; decide) hd
  leads {fuel d rest} hfuel hd hrest := by
    obtain ⟨k, rfl⟩ : ∃ k, fuel = k + 3 := ⟨fuel - 3, by omega⟩
    obtain ⟨ahead, hahead, hidle⟩ := hrest.ahead
    have hd : (fresh d.cursor).rest = w ++ '.' :: (p ++ rest) := by
      rw [← List.cons_append, ← List.append_assoc]
      exact hd
    have hpoint : Solid ('.' :: (p ++ rest)) := ⟨rfl, rfl, rfl⟩
    have hname := leads_name (d := fresh d.cursor) k hw (by rintro c ⟨⟩; decide)
      (Ahead.here hpoint) rfl hd
    have hgap := hname.trans (leads_gap_here hname.rest_eq hpoint)
    obtain ⟨m, m', hproperty⟩ := leads_propertyAfter hp hrest.stops hgap.rest_eq
    have hmember := (hgap.trans hproperty).closed .member
    have htail : postfixTail (k + 3) true d.cursor (primary (k + 3) (fresh d.cursor)) =
        (propertyAfter (primary (k + 3) (fresh d.cursor)).gap 1).close .member d.cursor := by
      rw [postfixTail]
      simp only [hgap.rest_eq]
      exact postfixTail_of_idle true d.cursor ((hahead.gap hmember.rest_eq).rest_eq.symm ▸ hidle)
    rw [htail]
    refine ⟨_, ⟨rfl, ?_⟩, hmember⟩
    exact .triple rfl rfl (.leaf rfl) (.leaf rfl) (.leaf rfl)

/-- A key alone is a member of the same name. -/
theorem memberTail_of_brace {c : Text.Cursor source} {m : Text.Mark source} {s : String}
    (h : Leads (fresh c) e [.leaf .propertyName m s] rest) (hahead : Ahead rest ('\x7d' :: cs)) :
    memberTail (fuel + 1) c e = e.retag fun _ => .leaf .shorthand m s := by
  have hspace := (hahead.space h.rest_eq).rest_eq
  have hnodes : e.nodes = [.leaf .propertyName m s] := h.nodes_eq
  have hassignment : Lexeme.assignment ('\x7d' :: cs) = 0 := rfl
  rw [memberTail]
  simp only [hspace, hnodes, hassignment]
  rfl

theorem leads_shorthand (fuel : Nat) (hw : IsName w) (hmodifier : String.ofList w ∉ modifierWords)
    (hrest : Stops rest) (hahead : Ahead rest ('\x7d' :: cs)) (hd : d.rest = w ++ rest) :
    ∃ m, Leads d (member (fuel + 2) d) [.leaf .shorthand m (String.ofList w)] rest := by
  obtain ⟨-, hkey⟩ := leads_word (d := fresh d.cursor) .propertyName hw hrest hd
  rw [leads_key hw hmodifier hrest hd, memberTail_of_brace hkey hahead]
  exact ⟨_, (leads_retag _ [] hkey).append⟩

/-- A name in braces. -/
theorem chain_braced (hw : IsName w) (hmodifier : String.ofList w ∉ modifierWords) :
    Chain (QuietTarget callee : Node source → Prop) 5 ('\x7b' :: ' ' :: (w ++ [' ', '\x7d'])) where
  begins rest := ⟨⟨rfl, rfl, rfl⟩, _, _, rfl, by decide⟩
  bare hd _ := bare_of_head hd (by decide) rfl
  leads {fuel d rest} hfuel hd hrest := by
    obtain ⟨k, rfl⟩ : ∃ k, fuel = k + 5 := ⟨fuel - 5, by omega⟩
    have hd : (fresh d.cursor).rest = '\x7b' :: ([' '] ++ (w ++ ([' '] ++ '\x7d' :: rest))) := by
      rw [show (fresh d.cursor).rest = _ from hd]
      simp
    have hbegins := hw.begins ([' '] ++ '\x7d' :: rest)
    have hopen := leads_sign hd
    have hspace := hopen.trans (leads_space hopen.rest_eq blank_one hbegins.solid)
    obtain ⟨m, hmember⟩ := leads_shorthand k hw hmodifier (stops_blank _)
      (.blank ⟨rfl, rfl, rfl⟩) hspace.rest_eq
    rw [show member (k + 2) = entryReader .members (k + 2) from rfl,
      ← entry_of_begins .members (hspace.rest_eq ▸ hbegins)] at hmember
    obtain ⟨m', hclose⟩ := leads_entriesAfter_close (k + 2) .members hmember.rest_eq blank_one
    have hall := (hspace.trans (hmember.trans hclose)).close (d := fresh d.cursor) .object
    rw [← entries_of_begins .members hopen.rest_eq blank_one hbegins] at hall
    have hprimary : primary (k + 5) (fresh d.cursor) = (fresh d.cursor).append
        ((entries (k + 4) .members ((fresh d.cursor).sign 1)).close .object (fresh d.cursor).cursor) := by
      rw [primary]
      simp only [hd]
      rfl
    rw [← hprimary] at hall
    refine ⟨_, ⟨rfl, ?_⟩, leads_chain hrest hall⟩
    exact .triple rfl rfl (.leaf rfl) (.leaf rfl) (.leaf rfl)

theorem leads_assigned {c : Text.Cursor source} {t : Node source}
    (ht : t.isTarget = true) (h : Leads (fresh c) e [t] (' ' :: '=' :: ' ' :: (cs ++ rest)))
    (hcs : Solid (cs ++ rest)) (hread : ∀ f : Draft source, f.rest = cs ++ rest →
      ∃ n, Quiet callee n ∧ Leads f (expression fuel f) [n] rest) :
    ∃ b m n, Quiet callee n ∧ Leads (fresh c) (assigned (fuel + 1) c e)
      [.branch .assignment c.mark b [t.toPattern, .leaf .punctuation m "=", n]] rest := by
  have hsign : Solid ('=' :: ' ' :: (cs ++ rest)) := ⟨rfl, rfl, rfl⟩
  have hahead := (leads_gap_blank h.rest_eq hsign).rest_eq
  have hpattern := leads_retag (·.toPattern) [] h
  have hgap := hpattern.trans (leads_gap_blank hpattern.rest_eq hsign)
  have hequals := hgap.trans (leads_sign hgap.rest_eq)
  have hspace := hequals.trans (leads_space_blank hequals.rest_eq hcs)
  obtain ⟨n, hn, hleads⟩ := hread _ hspace.rest_eq
  have hall := (hspace.trans hleads).closed .assignment
  have hnodes : e.nodes = [t] := h.nodes_eq
  have hlength : Lexeme.assignment ('=' :: ' ' :: (cs ++ rest)) = 1 := rfl
  have hassigned : assigned (fuel + 1) c e =
      (expression fuel ((e.retag (·.toPattern)).gap.sign 1).space).close .assignment c := by
    rw [assigned, hahead, hlength]
    simp only [hnodes, ht]
    rfl
  rw [hassigned]
  exact ⟨_, _, n, hn, hall⟩

/-- An assignment of a value to a target. -/
theorem form_assignment {t : List Char} (ht : Chain (QuietTarget callee : Node source → Prop) levels t)
    (h : Form expression (Quiet callee : Node source → Prop) levels' cs) :
    Form operand (QuietBranch callee .assignment : Node source → Prop) (levels + levels' + 3)
      (t ++ ' ' :: '=' :: ' ' :: cs) where
  begins rest := by
    rw [List.append_assoc]
    exact ht.begins _
  leads {fuel d rest} hfuel hd hrest := by
    obtain ⟨k, rfl⟩ : ∃ k, fuel = k + 3 := ⟨fuel - 3, by omega⟩
    have hd : d.rest = t ++ ' ' :: '=' :: ' ' :: (cs ++ rest) := by rw [hd]; simp
    have hafter := after_assignment (cs ++ rest)
    obtain ⟨n, ⟨htarget, hpattern⟩, hleads⟩ := ht.leads (show levels ≤ k + 1 by omega) hd hafter
    obtain ⟨b, m, n', hn', hall⟩ := leads_assigned htarget hleads (h.begins rest).solid
      fun f hf => h.leads (show levels' ≤ k by omega) hf hrest
    rw [operand_of_bare (ht.bare hd hafter), postfixed]
    refine ⟨_, ⟨⟨_, _, _, rfl⟩, ?_⟩, hall.append⟩
    exact .triple rfl rfl hpattern (.leaf rfl) hn'

/-! ### Statements -/

/-- The words that a statement begins with. -/
def statementWords : List String :=
  ["if", "for", "while", "with", "do", "switch", "try", "break", "continue", "return", "throw",
    "debugger", "var", "const", "let", "function", "async", "class", "import", "export"]

/-- A text is read as one statement, whatever comes after it, given so many levels. -/
structure Sentence (source : List Char) (callee : String) (levels : Nat) (cs : List Char) : Prop where
  begins : ∀ rest, Begins (cs ++ rest)
  leads : ∀ {fuel : Nat} {d : Draft source} {rest : List Char}, levels ≤ fuel → d.rest = cs ++ rest →
    ∃ n, Quiet callee n ∧ Leads d (statement fuel d) [n] rest

theorem Sentence.congr {cs' : List Char} (h : Sentence source callee levels cs)
    (hlevels : levels ≤ levels') (hcs : cs = cs') : Sentence source callee levels' cs' where
  begins := hcs ▸ h.begins
  leads hfuel hd := h.leads (Nat.le_trans hlevels hfuel) (hcs ▸ hd)

/-- A statement ends after its semicolon. -/
theorem leads_sentence (read : Draft source → Draft source) {ns : List (Node source)} (kind : Kind)
    (h : Leads (fresh d.cursor) (read (fresh d.cursor)) ns (';' :: rest)) :
    ∃ b m, Leads d (d.sentence kind read)
      [.branch kind d.cursor.mark b (ns ++ [.leaf .punctuation m ";"])] rest := by
  have hgap := h.trans (leads_gap_here h.rest_eq (Ends.semicolon rest).solid)
  have hsign := hgap.trans (leads_sign hgap.rest_eq)
  have hsemicolon : (read (fresh d.cursor)).semicolon =
      (true, (read (fresh d.cursor)).gap.sign 1) := by
    rw [semicolon, beginsWith, hgap.rest_eq]
    rfl
  have hall := hsign.close (d := d) kind
  rw [List.append_nil] at hall
  rw [sentence, hsemicolon]
  exact ⟨_, _, hall⟩

/-- A declaration of a constant. -/
theorem sentence_declaration
    (h : Form expression (QuietBranch callee .assignment : Node source → Prop) levels cs) :
    Sentence source callee (levels + 2) (['c', 'o', 'n', 's', 't'] ++ ' ' :: (cs ++ [';'])) where
  begins rest := begins_of_wordPart (by decide) _
  leads {fuel d rest} hfuel hd := by
    obtain ⟨k, rfl⟩ : ∃ k, fuel = k + 2 := ⟨fuel - 2, by omega⟩
    have hd : (fresh d.cursor).rest = ['c', 'o', 'n', 's', 't'] ++ ' ' :: (cs ++ ';' :: rest) := by
      rw [show (fresh d.cursor).rest = _ from hd]
      simp
    obtain ⟨hword, -, hspace⟩ := leads_keyword (by decide) rfl (h.begins _).solid hd
    obtain ⟨n, ⟨⟨a, b, ns, rfl⟩, hn⟩, hleads⟩ :=
      h.leads (show levels ≤ k by omega) hspace.rest_eq (Ends.semicolon rest).settled
    have hpattern := leads_retag (·.toPattern) _ (hspace.trans hleads)
    have hdeclarations : declarations (k + 1) ((fresh d.cursor).wordToken .punctuation) =
        (expression k ((fresh d.cursor).wordToken .punctuation).space).retag (·.toPattern) := by
      rw [declarations, beginsWith,
        (leads_gap_here hpattern.rest_eq (Ends.semicolon rest).solid).rest_eq]
      rfl
    rw [← hdeclarations] at hpattern
    obtain ⟨b', m, hsentence⟩ := leads_sentence (d := d)
      (fun b => declarations (k + 1) (b.wordToken .punctuation)) .statement hpattern
    have hword : d.word = "const" := hword
    have hd : d.rest = 'c' :: ('o' :: 'n' :: 's' :: 't' :: ' ' :: (cs ++ ';' :: rest)) := hd
    have hstatement : statement (k + 2) d =
        d.sentence .statement fun b => declarations (k + 1) (b.wordToken .punctuation) := by
      rw [statement]
      simp only [hd, hword]
      rfl
    rw [hstatement]
    refine ⟨_, ?_, hsentence⟩
    exact .triple rfl rfl (.leaf rfl) hn (.leaf rfl)

theorem statement_of_name (hw : IsName w) (hplain : String.ofList w ∉ statementWords)
    (hrest : Stops rest) (hd : d.rest = w ++ rest) : statement (fuel + 1) d = plain fuel d := by
  obtain ⟨hword, -⟩ := leads_word .name hw hrest hd
  rw [← hword] at hplain
  rw [statement]
  split
  all_goals try exact absurd ‹_› (hw.rest_ne hd (by decide) _)
  simp only
  split
  all_goals first
    | rfl
    | exact absurd (by rw [‹d.word = _›]; decide) hplain

/-- A statement that is an expression, and begins with a member of a name. -/
theorem sentence_member {t : List Char} (hw : IsName w) (hplain : String.ofList w ∉ statementWords)
    (ht : t = w ++ '.' :: cs) (h : Form expression (Quiet callee : Node source → Prop) levels t) :
    Sentence source callee (levels + 4) (t ++ [';']) where
  begins rest := by
    rw [List.append_assoc]
    exact h.begins _
  leads {fuel d rest} hfuel hd := by
    obtain ⟨k, rfl⟩ : ∃ k, fuel = k + 4 := ⟨fuel - 4, by omega⟩
    subst ht
    have hd : d.rest = w ++ '.' :: (cs ++ ';' :: rest) := by rw [hd]; simp
    have hstops : Stops ('.' :: (cs ++ ';' :: rest)) := by
      rintro c ⟨⟩
      decide
    obtain ⟨n, hn, hleads⟩ := h.leads (d := fresh (fresh d.cursor).cursor)
      (show levels ≤ k + 1 by omega) (by rw [List.append_assoc]; exact hd) (Ends.semicolon rest).settled
    have hexpressions := leads_expressions (d := fresh d.cursor) hleads (Ends.semicolon rest).solid rfl
    obtain ⟨b, m, hsentence⟩ := leads_sentence (d := d) _ .expressionStatement hexpressions
    obtain ⟨-, htoken⟩ := leads_word .reserved hw hstops hd
    have hlabel : (d.wordToken .reserved).gap.beginsWith ":" = false := by
      rw [beginsWith, (leads_gap_here htoken.rest_eq ⟨rfl, rfl, rfl⟩).rest_eq]
      rfl
    have hstarts : startsOperand d.rest = true := by
      obtain ⟨c, t, rfl, hdigit⟩ := hw.exists_cons
      have hword : Lexeme.word (c :: t ++ '.' :: (cs ++ ';' :: rest)) ≠ 0 := by
        rw [word_append hdigit hw.parts hstops]
        exact Nat.succ_ne_zero _
      rw [hd]
      show (Lexeme.word (c :: t ++ '.' :: (cs ++ ';' :: rest)) != 0 || _ || _) = true
      rw [bne_iff_ne.mpr hword]
      rfl
    have hsame : statement (k + 4) d = d.sentence .expressionStatement (expressions (k + 2)) := by
      rw [statement_of_name hw hplain hstops hd, plain, hlabel, Bool.and_false, hstarts]
      rfl
    rw [hsame]
    refine ⟨_, ?_, hsentence⟩
    exact .pair rfl rfl hn (.leaf rfl)

/-! ### Scripts -/

/-- A text is read as the rest of a script. -/
def Statements (source : List Char) (callee : String) (fuel : Nat) (cs : List Char) : Prop :=
  ∀ (steps : Nat) (d : Draft source), cs.length < steps → d.rest = cs →
    ∃ ns, (∀ n ∈ ns, Quiet callee n) ∧ Leads d (programTail steps fuel d) ns []

theorem statements_end (hbs : Between cs) : Statements source callee fuel cs := by
  intro steps d hsteps hd
  obtain ⟨k, rfl⟩ : ∃ k, steps = k + 1 := ⟨steps - 1, by omega⟩
  rw [← List.append_nil cs] at hd
  obtain ⟨ns, hns, hspace⟩ := leads_space_between hbs Ends.nil.solid hd
  rw [programTail]
  simp only [hspace.rest_eq]
  exact ⟨ns, quiet_of_layout hns, hspace⟩

theorem statements_cons {bs after : List Char} (hbs : Between bs)
    (h : Sentence source callee levels cs) (hfuel : levels ≤ fuel)
    (h' : Statements source callee fuel after) : Statements source callee fuel (bs ++ (cs ++ after)) := by
  intro steps d hsteps hd
  have hbegins := h.begins after
  obtain ⟨c, t, hcons, -⟩ := hbegins.head
  have hpos : 0 < cs.length := by
    obtain ⟨c, t, hcons, -⟩ := (h.begins []).head
    rw [List.append_nil] at hcons
    simp [hcons]
  obtain ⟨ns, hns, hspace⟩ := leads_space_between hbs hbegins.solid hd
  obtain ⟨n, hn, hleads⟩ := h.leads hfuel hspace.rest_eq
  obtain ⟨k, rfl⟩ : ∃ k, steps = k + 1 := ⟨steps - 1, by omega⟩
  simp only [List.length_append] at hsteps
  obtain ⟨ms, hms, hrest⟩ := h' k _ (by omega) hleads.rest_eq
  have hnext : programTail (k + 1) fuel d = programTail k fuel (statement fuel d.space) := by
    rw [programTail]
    simp only [hspace.rest_eq, hcons]
  rw [hnext]
  refine ⟨_, ?_, hspace.trans (hleads.trans hrest)⟩
  exact List.forall_mem_append.mpr ⟨quiet_of_layout hns, List.forall_mem_cons.mpr ⟨hn, hms⟩⟩

/-- A script is quiet if all its statements are. -/
theorem quiet_parse (h : Statements source callee (16 * source.length + 64) source)
    (hsource : Lexeme.startsWith "#!" source = false) : Quiet callee (parse source) := by
  obtain ⟨ns, hns, hleads⟩ :=
    h (source.length + 1) (fresh (Text.Cursor.start source)) (Nat.lt_succ_self _) rfl
  obtain ⟨a, b, hparse⟩ := parse_of_programTail hsource hleads
  rw [hparse]
  exact .plain rfl rfl hns

end Workyard.Options
