import Workyard.Proofs.Script.Twins

/-!
# Where what is read begins

Without a fault, what a function of the grammar reads begins where the reading began, and what is
read as an entry or as a statement does not begin with a parenthesis that closes. Objects, arrays and
quoted texts end with such a character as well, so that whatever they hold stands before it.
-/

namespace Workyard.Script

set_option autoImplicit false

open Node Draft Text

variable {source : List Char}

/-- A character stands at the mark that is no closing parenthesis. -/
def Occupied (m : Mark source) : Prop :=
  ∃ before c after, source = before ++ c :: after ∧ m.offset = byteLength before ∧ c ≠ ')'

def Kind.isDelimited : Kind → Bool
  | .object | .array | .string | .template => true
  | _ => false

/-- The node has an end of its own, if it is one that needs an end. -/
def Node.Delimited (n : Node source) : Prop :=
  n.kind.isDelimited = true → ∃ k m s, n.children.getLast? = some (.leaf k m s) ∧ Occupied m

/-- One node that begins at the place. -/
def Fronted (c : Cursor source) (ns : List (Node source)) : Prop :=
  ∃ n, ns = [n] ∧ n.start = c.mark ∧ n.Delimited

/-- The latest node is a token that is no closing parenthesis. -/
def Concluded (ns : List (Node source)) : Prop :=
  ∃ k m s, ns.head? = some (.leaf k m s) ∧ Occupied m

/-- Each node that a reader looks at has a beginning of its own and an end of its own. -/
def Standing (ns : List (Node source)) : Prop :=
  ∀ n ∈ ns, n.kind.isSignificant = true → Occupied n.start ∧ n.Delimited

variable {c : Cursor source} {d e : Draft source} {k : Kind} {fuel : Nat}

theorem occupied_of_rest {x : Char} {t : List Char} (h : c.rest = x :: t) (hx : x ≠ ')') :
    Occupied c.mark := by
  obtain ⟨before, hsource, hoffset⟩ := c.split
  exact ⟨before, x, t, by rw [← h]; exact hsource, hoffset, hx⟩

theorem delimited_of_not {n : Node source} (h : n.kind.isDelimited = false) : n.Delimited :=
  fun hn => absurd hn (ne_true_of_eq_false h)

/-! ### Nodes and their places -/

theorem Standing.append {ns ms : List (Node source)} (h : Standing ns) (h' : Standing ms) :
    Standing (ms ++ ns) :=
  fun n hn => (List.mem_append.mp hn).elim (h' n) (h n)

theorem Adds.append_standing {f : Draft source} (h : Adds Standing d e) (h' : Adds Standing e f) :
    Adds Standing d f :=
  h.trans h' fun _ _ => Standing.append

theorem fronted_close (hk : k.isDelimited = false) (c : Cursor source) (e : Draft source) :
    Nodes (Fronted c) (e.close k c).nodes :=
  .inr ⟨_, rfl, rfl, delimited_of_not hk⟩

theorem fronted_delimited (k : Kind) (c : Cursor source) (h : Nodes Concluded e.nodes) :
    Nodes (Fronted c) (e.close k c).nodes := by
  rcases h with h | ⟨k', m, s, hlast, hm⟩
  · rw [← anyFault_reverse] at h
    exact .inl (by rw [close, anyFault, hasFault_of_anyFault h]; rfl)
  · refine .inr ⟨_, rfl, rfl, fun _ => ⟨k', m, s, ?_, hm⟩⟩
    rw [← List.getLast?_reverse] at hlast
    exact hlast

theorem fronted_error (c : Cursor source) (e : Draft source) :
    Nodes (Fronted c) (e.close .error c).nodes :=
  .inl rfl

theorem fronted_token (hk : k.isDelimited = false) (n : Nat) (d : Draft source) :
    Adds (Fronted d.cursor) d (d.token k n) :=
  ⟨[_], rfl, .inr ⟨_, rfl, rfl, delimited_of_not hk⟩⟩

theorem fronted_enclose (hk : k.isDelimited = false) (read : Draft source → Draft source)
    (d : Draft source) : Adds (Fronted d.cursor) d (d.enclose k read) :=
  .of_nodes (fronted_close hk _ _) d

/-- What begins where something else stands than a closing parenthesis, as one node of a list. -/
theorem Adds.standing {x : Char} {t : List Char} (h : Adds (Fronted d.cursor) d e)
    (hd : d.rest = x :: t) (hx : x ≠ ')') : Adds Standing d e := by
  refine h.imp ?_
  rintro _ ⟨n, rfl, hstart, hn⟩ m hm -
  obtain rfl := List.mem_singleton.mp hm
  exact ⟨hstart ▸ occupied_of_rest hd hx, hn⟩

theorem standing_sign (n : Nat) (d : Draft source) : Adds Standing d (d.sign n) := by
  refine adds_token fun m s n hn hk => ?_
  obtain rfl := List.mem_singleton.mp hn
  exact absurd hk Bool.false_ne_true

theorem standing_layout (html : Bool) (fuel : Nat) (d : Draft source) :
    Adds Standing d (d.layout html fuel) := by
  induction fuel generalizing d with
  | zero => exact adds_self fun _ h => absurd h List.not_mem_nil
  | succ fuel ih =>
    rw [layout_succ]
    split
    · rename_i k n hpassed
      obtain ⟨hk, -, x, t, hrest, hx⟩ := of_passed hpassed
      have hclosing : x ≠ ')' := by
        rintro rfl
        rw [hrest] at hpassed
        cases html <;> cases hpassed
      have hdelimited : k.isDelimited = false := by
        cases k <;> first | rfl | cases hk
      let g : Draft source := ⟨d.nodes, d.cursor.skip (Lexeme.space d.rest)⟩
      have hspace : Adds Standing d g := ⟨[], rfl, .inr fun _ h => absurd h List.not_mem_nil⟩
      exact (hspace.append_standing ((fronted_token hdelimited n g).standing hrest hclosing)).append_standing
        (ih _)
    · exact ⟨[], rfl, .inr fun _ h => absurd h List.not_mem_nil⟩

/-! ### Ends -/

theorem concluded_sign {x : Char} {t : List Char} (n : Nat) (hd : d.rest = x :: t) (hx : x ≠ ')') :
    Nodes Concluded (d.sign n).nodes :=
  .inr ⟨_, _, _, rfl, occupied_of_rest hd hx⟩

theorem concluded_entries {l : Listing} (hl : l ≠ .values) (fuel : Nat) (d : Draft source) :
    Nodes Concluded (entries fuel l d).nodes ∧ Nodes Concluded (entriesAfter fuel l d).nodes := by
  have hclosing : l.closing ≠ ')' := by
    cases l <;> first | decide | exact absurd rfl hl
  induction fuel generalizing d with
  | zero => exact ⟨nodes_missing d, nodes_missing d⟩
  | succ fuel ih =>
    constructor
    · rw [entries]
      split
      · exact nodes_missing d
      · rename_i x t hrest
        split
        · rename_i hx
          exact concluded_sign 1 hrest (beq_iff_eq.mp hx ▸ hclosing)
        · split
          · exact (ih _).1
          · split
            · exact nodes_missing d
            · exact (ih _).2
    · rw [entriesAfter]
      split
      · exact nodes_missing d
      · rename_i x t hrest
        split
        · rename_i hx
          exact concluded_sign 1 hrest (beq_iff_eq.mp hx ▸ hclosing)
        · split
          · exact (ih _).1
          · split
            · exact nodes_missing d
            · exact (ih _).2

theorem concluded_quotedTail {quote : Char} (hquote : quote ≠ ')') (fuel : Nat) (d : Draft source) :
    Nodes Concluded (quotedTail quote fuel d).nodes := by
  induction fuel generalizing d with
  | zero => exact nodes_missing d
  | succ fuel ih =>
    rw [quotedTail]
    generalize (if Lexeme.fragment quote d.rest = 0 then d else
      d.token .fragment (Lexeme.fragment quote d.rest)) = e
    split
    · exact ih _
    · rename_i x t _ hrest
      split
      · rename_i hx
        exact concluded_sign 1 hrest (beq_iff_eq.mp hx ▸ hquote)
      · split
        · rename_i hgap
          obtain ⟨t', hgap⟩ := List.head?_eq_some_iff.mp (beq_iff_eq.mp hgap)
          have hdrop : e.rest.drop (e.rest.length - e.gap.rest.length) = e.gap.rest :=
            (List.suffix_iff_eq_drop.mp (layout_suffix false _ e)).symm
          exact concluded_sign (d := e.token .fragment _) 1 (hdrop.trans hgap) hquote
        · exact nodes_missing e
    · exact nodes_missing e

theorem concluded_templateTail (fuel : Nat) (d : Draft source) :
    Nodes Concluded (templateTail fuel d).nodes := by
  induction fuel generalizing d with
  | zero => exact nodes_missing d
  | succ fuel ih =>
    rw [templateTail]
    generalize (if Lexeme.templateFragment d.rest = 0 then d else
      d.token .fragment (Lexeme.templateFragment d.rest)) = e
    split
    · exact nodes_missing e
    · rename_i t hrest
      exact concluded_sign 1 hrest (by decide)
    · exact ih _
    · exact ih _

/-! ### Expressions -/

theorem fronted_asParenthesized (c : Cursor source) (e : Draft source) :
    Nodes (Fronted c) (e.asParenthesized c).nodes := by
  unfold asParenthesized
  simp only
  split
  · exact fronted_close rfl c _
  · split
    · exact fronted_error c e
    · exact fronted_close rfl c e
  · split
    · exact fronted_error c e
    · exact fronted_close rfl c _

theorem fronted_parenthesized (fuel : Nat) (d : Draft source) :
    Adds (Fronted d.cursor) d (parenthesized fuel d) := by
  cases fuel with
  | zero => exact adds_missing d
  | succ fuel =>
    rw [parenthesized]
    split
    · exact .of_nodes (fronted_close rfl _ _) d
    · exact .of_nodes (fronted_asParenthesized _ _) d

theorem fronted_named (fuel : Nat) (d : Draft source) :
    Adds (Fronted d.cursor) d (named fuel d) := by
  cases fuel with
  | zero => exact adds_missing d
  | succ fuel =>
    rw [named]
    split
    · exact fronted_enclose rfl _ d
    · exact fronted_token rfl _ d

theorem fronted_newFrom (fuel : Nat) (d : Draft source) :
    Adds (Fronted d.cursor) d (newFrom fuel d) := by
  cases fuel with
  | zero => exact adds_missing d
  | succ fuel =>
    rw [newFrom]
    simp only
    split
    · exact .of_nodes (fronted_close rfl _ _) d
    · exact .of_nodes (fronted_close rfl _ _) d

theorem fronted_functionFrom (fuel : Nat) (c : Cursor source) (d : Draft source) :
    Adds (Fronted c) d (functionFrom fuel c d) := by
  cases fuel with
  | zero => exact adds_missing d
  | succ fuel =>
    have hkind : ∀ yields : Bool, (if yields then Kind.other else .function).isDelimited = false := by
      decide
    rw [functionFrom]
    exact .of_nodes (fronted_close (hkind _) _ _) d

theorem fronted_template (fuel : Nat) (d : Draft source) :
    Adds (Fronted d.cursor) d (template fuel d) := by
  cases fuel with
  | zero => exact adds_missing d
  | succ fuel =>
    rw [template]
    exact .of_nodes (fronted_delimited _ _ (concluded_templateTail fuel _)) d

theorem fronted_element (fuel : Nat) (d : Draft source) :
    Adds (Fronted d.cursor) d (element fuel d) := by
  cases fuel with
  | zero => exact adds_missing d
  | succ fuel =>
    rw [element]
    exact fronted_enclose rfl _ d

theorem fronted_quoted {quote : Char} (hquote : quote ≠ ')') (d : Draft source) :
    Adds (Fronted d.cursor) d (d.quoted quote) :=
  .of_nodes (fronted_delimited _ _ (concluded_quotedTail hquote _ _)) d

theorem fronted_listed {l : Listing} (hl : l ≠ .values) (k : Kind) (fuel : Nat) (d : Draft source) :
    Adds (Fronted d.cursor) d (d.enclose k fun b => entries fuel l (b.sign 1)) :=
  .of_nodes (fronted_delimited k _ (concluded_entries hl fuel _).1) d

/-- What cannot begin here is a fault, whatever follows it. -/
theorem fronted_astray (fuel : Nat) (d : Draft source) :
    Adds (Fronted d.cursor) d (astray fuel d) := by
  cases fuel with
  | zero => exact adds_missing d
  | succ fuel =>
    rw [astray]
    split
    · exact adds_missing d
    · exact (adds_stray d).of_fault ((adds_space_all _).append_all ((reads fuel).operand _).all)

theorem fronted_worded (fuel : Nat) (d : Draft source) :
    Adds (Fronted d.cursor) d (worded fuel d) := by
  cases fuel with
  | zero => exact adds_missing d
  | succ fuel =>
    rw [worded]
    split
    case h_7 => exact fronted_functionFrom fuel _ d
    case h_8 => exact fronted_enclose rfl _ d
    case h_9 => exact fronted_newFrom fuel d
    case h_10 =>
      simp only
      split
      · exact fronted_token rfl _ d
      · exact (adds_missing d).of_fault (Adds.all (adds_stray _))
    case h_11 =>
      simp only
      split
      · exact fronted_functionFrom fuel _ d
      · split
        · split
          · exact .of_nodes (fronted_close rfl _ _) d
          · exact .of_nodes (fronted_close rfl _ _) d
        · split
          · exact fronted_enclose rfl _ d
          · exact fronted_named fuel d
    case h_12 => exact fronted_named fuel d
    all_goals exact fronted_token rfl _ d

theorem fronted_primary (fuel : Nat) (d : Draft source) :
    Adds (Fronted d.cursor) d (primary fuel d) := by
  cases fuel with
  | zero => exact adds_missing d
  | succ fuel =>
    rw [primary]
    split
    · exact fronted_parenthesized fuel d
    · exact fronted_listed (by decide) _ fuel d
    · exact fronted_listed (by decide) _ fuel d
    · exact fronted_quoted (by decide) d
    · exact fronted_quoted (by decide) d
    · exact fronted_template fuel d
    · exact fronted_element fuel d
    · simp only
      split
      · exact ⟨[_], rfl, .inl rfl⟩
      · exact fronted_token rfl _ d
    · split
      · exact fronted_astray fuel d
      · split
        · exact fronted_token rfl _ d
        · exact ⟨[_], rfl, .inl rfl⟩
    · exact fronted_enclose rfl _ d
    · split
      · exact fronted_token rfl _ d
      · split
        · exact fronted_worded fuel d
        · exact fronted_astray fuel d

theorem fronted_postfixTail (fuel : Nat) (calls : Bool) {c : Cursor source} {e : Draft source}
    (he : Nodes (Fronted c) e.nodes) : Nodes (Fronted c) (postfixTail fuel calls c e).nodes := by
  induction fuel generalizing e with
  | zero => exact nodes_missing e
  | succ fuel ih =>
    have hgoes : ∀ k, k.isDelimited = false → ∀ f : Draft source,
        Nodes (Fronted c) (postfixTail fuel calls c (f.close k c)).nodes :=
      fun k hk f => ih (fronted_close hk c f)
    rw [postfixTail]
    simp only
    split
    · split
      · exact hgoes _ rfl _
      · exact he
    · exact hgoes _ rfl _
    · exact hgoes _ rfl _
    · exact hgoes _ rfl _
    · split
      · exact he
      · split <;> exact hgoes _ rfl _
    · split
      · exact hgoes _ rfl _
      · exact he
    · split
      · exact hgoes _ rfl _
      · exact he
    · exact he

theorem fronted_assigned (fuel : Nat) (he : Nodes (Fronted c) e.nodes) :
    Nodes (Fronted c) (assigned fuel c e).nodes := by
  cases fuel with
  | zero => exact nodes_missing e
  | succ fuel =>
    rw [assigned]
    split
    · split
      · exact fronted_close rfl c _
      · split
        · exact fronted_close rfl c _
        · exact he
    · exact he

theorem fronted_postfixed (fuel : Nat) (d : Draft source) :
    Adds (Fronted d.cursor) d (postfixed fuel d) := by
  cases fuel with
  | zero => exact adds_missing d
  | succ fuel =>
    have hprimary := (fronted_primary fuel (fresh d.cursor)).nodes
    rw [postfixed]
    exact .of_nodes (fronted_assigned fuel (fronted_postfixTail fuel true hprimary)) d

theorem fronted_operand (fuel : Nat) (d : Draft source) :
    Adds (Fronted d.cursor) d (operand fuel d) := by
  cases fuel with
  | zero => exact adds_missing d
  | succ fuel =>
    rw [operand]
    split
    · exact fronted_enclose rfl _ d
    split
    · exact fronted_enclose rfl _ d
    split
    case h_6 => exact fronted_postfixed fuel d
    all_goals exact fronted_enclose rfl _ d

theorem fronted_binaryTail (fuel : Nat) {c : Cursor source} {e : Draft source}
    (he : Nodes (Fronted c) e.nodes) : Nodes (Fronted c) (binaryTail fuel c e).nodes := by
  induction fuel generalizing e with
  | zero => exact nodes_missing e
  | succ fuel ih =>
    rw [binaryTail]
    split
    · exact he
    · exact ih (fronted_close rfl c _)

theorem fronted_expression (fuel : Nat) (d : Draft source) :
    Adds (Fronted d.cursor) d (expression fuel d) := by
  cases fuel with
  | zero => exact adds_missing d
  | succ fuel =>
    have hoperand := (fronted_operand fuel (fresh d.cursor)).nodes
    rw [expression]
    split
    · exact .of_nodes (fronted_close rfl _ _) d
    · exact .of_nodes (fronted_binaryTail fuel hoperand) d

/-! ### Lists of values -/

theorem fronted_entry {l : Listing} (hl : l ≠ .members) (fuel : Nat) (d : Draft source) :
    Adds (Fronted d.cursor) d (entry fuel l d) := by
  cases fuel with
  | zero => exact adds_missing d
  | succ fuel =>
    unfold entry
    split
    · exact fronted_enclose rfl _ d
    · split
      · exact absurd rfl hl
      · exact fronted_expression fuel d

/-- What stands in parentheses begins before the one that closes them. -/
theorem standing_entries (fuel : Nat) (d : Draft source) :
    Adds Standing d (entries fuel .values d) ∧ Adds Standing d (entriesAfter fuel .values d) := by
  induction fuel generalizing d with
  | zero => exact ⟨adds_missing d, adds_missing d⟩
  | succ fuel ih =>
    constructor
    · have hspace : Adds Standing d d.space := standing_layout true _ d
      rw [entries]
      split
      · exact adds_missing d
      · rename_i x t hrest
        split
        · exact hspace.append_standing (standing_sign 1 _)
        · rename_i hclosing
          split
          · exact (hspace.append_standing (standing_sign 1 _)).append_standing (ih _).1
          · split
            · exact adds_missing d
            · have hx : x ≠ ')' := fun hx => hclosing (beq_iff_eq.mpr hx)
              have hentry := (fronted_entry (l := .values) (by decide) fuel d.space).standing hrest hx
              exact (hspace.append_standing hentry).append_standing (ih _).2
    · have hgap : Adds Standing d d.gap := standing_layout false _ d
      rw [entriesAfter]
      split
      · exact adds_missing d
      · split
        · exact hgap.append_standing (standing_sign 1 _)
        · split
          · exact (hgap.append_standing (standing_sign 1 _)).append_standing (ih _).1
          · split
            · exact adds_missing d
            · exact (hgap.append_standing (adds_error _ _ _)).append_standing (ih _).2

/-! ### Statements -/

theorem Adds.fronted_toStatement (h : Adds (Fronted c) d e) :
    Adds (Fronted c) d (e.retag (·.toStatement)) := by
  obtain ⟨added, hadded, h⟩ := h
  cases added with
  | nil =>
    rcases h with h | ⟨n, h, -⟩
    · exact absurd h Bool.false_ne_true
    · cases h
  | cons n added =>
    refine ⟨n.toStatement :: added, by unfold retag; rw [hadded]; rfl, ?_⟩
    rcases h with h | ⟨m, heq, hstart, hm⟩
    · left
      rw [anyFault, hasFault_toStatement]
      exact h
    · obtain ⟨rfl, rfl⟩ := List.cons.inj heq
      refine .inr ⟨_, rfl, ?_⟩
      cases n with
      | leaf => exact ⟨hstart, hm⟩
      | branch k a b ns =>
        rw [Node.toStatement]
        split
        · exact ⟨hstart, hm⟩
        · exact ⟨hstart, delimited_of_not rfl⟩

theorem fronted_block (fuel : Nat) (d : Draft source) :
    Adds (Fronted d.cursor) d (block fuel d) := by
  cases fuel with
  | zero => exact adds_missing d
  | succ fuel =>
    rw [block]
    split
    · exact fronted_enclose rfl _ d
    · exact adds_missing d

theorem fronted_sentence (hk : k.isDelimited = false) (read : Draft source → Draft source)
    (d : Draft source) : Adds (Fronted d.cursor) d (d.sentence k read) := by
  have heq : d.sentence k read = d.append ((read (fresh d.cursor)).semicolon.2.close
      (if (read (fresh d.cursor)).semicolon.1 then k else .error) d.cursor) := rfl
  rw [heq]
  refine .of_nodes ?_ d
  split
  · exact fronted_close hk _ _
  · exact fronted_error _ _

theorem fronted_plain (fuel : Nat) (d : Draft source) :
    Adds (Fronted d.cursor) d (plain fuel d) := by
  cases fuel with
  | zero => exact adds_missing d
  | succ fuel =>
    rw [plain]
    split
    · exact fronted_enclose rfl _ d
    · split
      · exact fronted_sentence rfl _ d
      · exact adds_stray d

theorem fronted_statement (fuel : Nat) (d : Draft source) :
    Adds (Fronted d.cursor) d (statement fuel d) := by
  cases fuel with
  | zero => exact adds_missing d
  | succ fuel =>
    unfold statement
    split
    · exact fronted_block fuel d
    · exact fronted_enclose rfl _ d
    · exact fronted_enclose rfl _ d
    · simp only
      split
      · exact fronted_enclose rfl _ d
      · exact fronted_enclose rfl _ d
      · exact fronted_enclose rfl _ d
      · exact fronted_enclose rfl _ d
      · exact fronted_enclose rfl _ d
      · exact fronted_enclose rfl _ d
      · exact fronted_enclose rfl _ d
      · exact fronted_sentence rfl _ d
      · exact fronted_sentence rfl _ d
      · exact fronted_sentence rfl _ d
      · exact fronted_sentence rfl _ d
      · exact fronted_sentence rfl _ d
      · exact fronted_sentence rfl _ d
      · exact fronted_sentence rfl _ d
      · split
        · exact fronted_sentence rfl _ d
        · exact fronted_plain fuel d
      · exact (fronted_functionFrom fuel _ d).fronted_toStatement
      · split
        · exact (fronted_functionFrom fuel _ d).fronted_toStatement
        · exact fronted_plain fuel d
      · exact fronted_enclose rfl _ d
      · split
        · exact fronted_plain fuel d
        · exact fronted_sentence rfl _ d
      · split
        · exact fronted_sentence rfl _ d
        · split
          · exact fronted_enclose rfl _ d
          · split
            · exact fronted_enclose rfl _ d
            · exact fronted_plain fuel d
      · exact fronted_plain fuel d

/-- No statement begins with a closing parenthesis. -/
theorem fault_of_closing {t : List Char} (hd : d.rest = ')' :: t) (fuel : Nat) :
    Adds Standing d (statement fuel d) := by
  have hword : d.word = "" := word_eq_empty hd rfl
  match fuel with
  | 0 => exact adds_missing d
  | 1 =>
    unfold statement
    simp only [hd, hword]
    exact adds_missing d
  | fuel + 2 =>
    unfold statement
    simp only [hd, hword]
    rw [plain, hd]
    exact adds_stray d

theorem standing_programTail (steps fuel : Nat) (d : Draft source) :
    Adds Standing d (programTail steps fuel d) := by
  induction steps generalizing d with
  | zero => exact adds_missing d
  | succ steps ih =>
    have hspace : Adds Standing d d.space := standing_layout true _ d
    rw [programTail]
    split
    · exact hspace
    · rename_i hrest
      obtain ⟨x, t, hcons⟩ := List.exists_cons_of_ne_nil hrest
      have hstatement : Adds Standing d.space (statement fuel d.space) := by
        by_cases hx : x = ')'
        · exact fault_of_closing (hx ▸ hcons) fuel
        · exact (fronted_statement fuel d.space).standing hcons hx
      exact (hspace.append_standing hstatement).append_standing (ih _)

/-- What a reader of a script looks at begins with no closing parenthesis. -/
theorem standing_parse (h : (parse source).hasFault = false) : Standing (parse source).children := by
  have hstart : Adds Standing (fresh (Cursor.start source))
      (if beginsWith "#!" (fresh (Cursor.start source)) then
        (fresh (Cursor.start source)).token .other
          ((fresh (Cursor.start source)).rest.takeWhile (· != '\n')).length
      else fresh (Cursor.start source)) := by
    split
    · rename_i hbang
      obtain ⟨t, ht⟩ := List.isPrefixOf_iff_prefix.mp hbang
      exact (fronted_token rfl _ _).standing ht.symm (by decide)
    · exact adds_self fun _ h => absurd h List.not_mem_nil
  have hall := (hstart.append_standing
    (standing_programTail (source.length + 1) (16 * source.length + 64) _)).nodes
  unfold parse at h ⊢
  rcases hall with hall | hall
  · rw [← anyFault_reverse] at hall
    rw [hasFault_of_anyFault hall] at h
    cases h
  · exact fun n hn => hall n (List.mem_reverse.mp hn)

end Workyard.Script
