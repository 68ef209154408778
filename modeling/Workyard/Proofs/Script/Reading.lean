import Workyard.Proofs.Script.Shape

/-!
# What is read

Each function of the grammar adds nodes of the right shape. Below a bound on the depth this is
assumed of all of them at once, and shown for each one above it.
-/

namespace Workyard.Script

set_option autoImplicit false

open Node Draft

variable {source : List Char}

/-- What the functions of the grammar add at a bound on the depth. -/
structure Reads (source : List Char) (fuel : Nat) : Prop where
  expressions : ∀ d : Draft source, Adds One d (expressions fuel d)
  expressionsTail : ∀ start, ∀ e : Draft source, Nodes One e.nodes →
    Nodes One (expressionsTail fuel start e).nodes
  expression : ∀ d : Draft source, Adds One d (expression fuel d)
  binaryTail : ∀ start, ∀ e : Draft source, Nodes One e.nodes →
    Nodes One (binaryTail fuel start e).nodes
  operand : ∀ d : Draft source, Adds One d (operand fuel d)
  postfixed : ∀ d : Draft source, Adds One d (postfixed fuel d)
  postfixTail : ∀ calls start, ∀ e : Draft source, Nodes One e.nodes →
    Nodes One (postfixTail fuel calls start e).nodes
  assigned : ∀ start, ∀ e : Draft source, Nodes One e.nodes →
    Nodes One (assigned fuel start e).nodes
  primary : ∀ d : Draft source, Adds One d (primary fuel d)
  astray : ∀ d : Draft source, Adds One d (astray fuel d)
  worded : ∀ d : Draft source, Adds One d (worded fuel d)
  named : ∀ d : Draft source, Adds One d (named fuel d)
  parenthesized : ∀ d : Draft source, Adds One d (parenthesized fuel d)
  newFrom : ∀ d : Draft source, Adds One d (newFrom fuel d)
  entries : ∀ l, ∀ d : Draft source, Adds All d (entries fuel l d)
  entriesAfter : ∀ l, ∀ d : Draft source, Adds All d (entriesAfter fuel l d)
  entry : ∀ l, ∀ d : Draft source, Adds One d (entry fuel l d)
  member : ∀ d : Draft source, Adds One d (member fuel d)
  memberTail : ∀ start, ∀ e : Draft source, Nodes One e.nodes →
    Nodes One (memberTail fuel start e).nodes
  propertyName : ∀ d : Draft source, Adds One d (propertyName fuel d)
  functionFrom : ∀ start, ∀ d : Draft source, Adds One d (functionFrom fuel start d)
  template : ∀ d : Draft source, Adds One d (template fuel d)
  templateTail : ∀ d : Draft source, Adds Quoted d (templateTail fuel d)
  element : ∀ d : Draft source, Adds One d (element fuel d)
  block : ∀ d : Draft source, Adds One d (block fuel d)
  statement : ∀ d : Draft source, Adds All d (statement fuel d)
  plain : ∀ d : Draft source, Adds All d (plain fuel d)

theorem reads_zero : Reads source 0 := by
  constructor <;> intros <;> first | exact adds_missing _ | exact nodes_missing _

variable {fuel : Nat} {d e : Draft source} {start : Text.Cursor source}

/-! ### Quoted texts -/

theorem adds_quoted_token {k : Kind} (hk : k.isQuotedPart = true) (n : Nat) (d : Draft source) :
    Adds Quoted d (d.token k n) :=
  adds_token fun m s _ hn => .inl ⟨k, m, s, List.mem_singleton.mp hn, hk⟩

theorem adds_fragment (n : Nat) (d : Draft source) :
    Adds Quoted d (if n = 0 then d else d.token .fragment n) := by
  split
  · exact adds_self fun _ h => absurd h List.not_mem_nil
  · exact adds_quoted_token rfl n d

theorem adds_escape (m : Nat) (d : Draft source) :
    Adds Quoted d (if m = 0 then d.stray else d.token .escape m) := by
  split
  · exact adds_stray d
  · exact adds_quoted_token rfl m d

theorem adds_quotedTail (quote : Char) (fuel : Nat) (d : Draft source) :
    Adds Quoted d (quotedTail quote fuel d) := by
  induction fuel generalizing d with
  | zero => exact adds_missing d
  | succ fuel ih =>
    have hfragment := adds_fragment (Lexeme.fragment quote d.rest) d
    rw [quotedTail]
    generalize (if Lexeme.fragment quote d.rest = 0 then d else
      d.token .fragment (Lexeme.fragment quote d.rest)) = e at hfragment ⊢
    refine hfragment.append_quoted ?_
    split
    · exact (adds_escape _ e).append_quoted (ih _)
    · split
      · exact adds_quoted_token rfl 1 e
      · split
        · exact (adds_quoted_token rfl _ e).append_quoted (adds_quoted_token rfl 1 _)
        · exact adds_missing e
    · exact adds_missing e

theorem adds_one_quoted (quote : Char) (d : Draft source) : Adds One d (d.quoted quote) := by
  refine adds_quoted rfl (Adds.nodes (c := d.cursor) ?_)
  exact (adds_quoted_token rfl 1 _).append_quoted (adds_quotedTail quote _ _)

/-! ### Steps that read nothing below -/

theorem adds_named (d : Draft source) : Adds One d (named (fuel + 1) d) := by
  rw [named]
  split
  · exact adds_enclose_hidden rfl _ d
  · exact adds_one_token rfl rfl _ d

theorem adds_newFrom (d : Draft source) : Adds One d (newFrom (fuel + 1) d) := by
  rw [newFrom]
  simp only
  split
  · exact adds_hidden rfl _ _ _
  · exact adds_hidden rfl _ _ _

theorem adds_functionFrom (start : Text.Cursor source) (d : Draft source) :
    Adds One d (functionFrom (fuel + 1) start d) := by
  rw [functionFrom]
  have hkind : ∀ yields : Bool, (if yields then Kind.other else .function).isOpaque = true := by
    intro yields
    cases yields <;> rfl
  exact adds_hidden (hkind _) _ _ _

theorem adds_element (d : Draft source) : Adds One d (element (fuel + 1) d) := by
  rw [element]
  exact adds_enclose_hidden rfl _ d

theorem adds_propertyName (d : Draft source) : Adds One d (propertyName (fuel + 1) d) := by
  rw [propertyName]
  split
  · exact adds_one_quoted _ d
  · exact adds_one_quoted _ d
  · exact adds_enclose_hidden rfl _ d
  · split
    · exact adds_missing d
    · exact adds_one_token rfl rfl _ d
  · split
    · exact adds_one_token rfl rfl _ d
    · split
      · exact adds_one_token rfl rfl _ d
      · exact adds_missing d

theorem nodes_assigned (start : Text.Cursor source) (e : Draft source) (he : Nodes One e.nodes) :
    Nodes One (assigned (fuel + 1) start e).nodes := by
  rw [assigned]
  split
  · split
    · exact nodes_close_hidden rfl _ _
    · split
      · exact nodes_close_hidden rfl _ _
      · exact he
  · exact he

/-- The ends of a list for which `p` holds, and what stands between them. -/
theorem takeWhile_dropWhile_reverse {α : Type} (p : α → Bool) (xs : List α) :
    xs.takeWhile p ++ (((xs.dropWhile p).reverse.dropWhile p).reverse ++
      ((xs.dropWhile p).reverse.takeWhile p).reverse) = xs := by
  rw [← List.reverse_append, List.takeWhile_append_dropWhile, List.reverse_reverse,
    List.takeWhile_append_dropWhile]

theorem anyFault_close {k : Kind} {start : Text.Cursor source} {ns : List (Node source)}
    {c : Text.Cursor source} (h : anyFault ns = true) :
    anyFault (Draft.close k start ⟨ns, c⟩).nodes = true := by
  rw [← anyFault_reverse] at h
  simp [Draft.close, anyFault, hasFault_of_anyFault h]

/-- The children that become a sequence are still there, below it. -/
theorem anyFault_asParenthesized {start : Text.Cursor source} {e : Draft source}
    (he : anyFault e.nodes = true) : anyFault (e.asParenthesized start).nodes = true := by
  unfold asParenthesized
  simp only
  split
  · exact anyFault_close rfl
  · split <;> exact anyFault_close he
  · split
    · exact anyFault_close he
    · refine anyFault_close ?_
      generalize (fun n : Node source => !(n.kind.isSignificant && n.kind != .htmlComment)) = p
      have hsplit := takeWhile_dropWhile_reverse p e.nodes.reverse
      generalize e.nodes.reverse.takeWhile p = outer at hsplit ⊢
      generalize (e.nodes.reverse.dropWhile p).reverse.takeWhile p = closing at hsplit ⊢
      generalize ((e.nodes.reverse.dropWhile p).reverse.dropWhile p).reverse = middle at hsplit ⊢
      rw [← anyFault_reverse e.nodes, ← hsplit, anyFault_append, anyFault_append,
        anyFault_reverse] at he
      rw [anyFault_append, anyFault, anyFault_reverse, hasFault]
      have hsequence : Kind.sequence.isFault = false := rfl
      rw [hsequence, Bool.false_or, Bool.or_comm]
      simpa [Bool.or_assoc, Bool.or_comm, Bool.or_left_comm] using he

theorem nodes_asParenthesized {start : Text.Cursor source} {e : Draft source}
    (he : Nodes All e.nodes) : Nodes One (e.asParenthesized start).nodes := by
  rcases he with he | he
  · exact .inl (anyFault_asParenthesized he)
  have hwhole : Nodes One (e.close .parenthesized start).nodes :=
    nodes_close (.inr (.listing rfl fun n hn => he n (List.mem_reverse.mp hn)))
  have herror : Nodes One (e.close .error start).nodes := .inl rfl
  unfold asParenthesized
  simp only
  split
  · exact nodes_close (.inl rfl)
  · split
    · exact herror
    · exact hwhole
  · split
    · exact herror
    · refine nodes_close (.inr (.listing rfl fun m hm => ?_))
      generalize (fun n : Node source => !(n.kind.isSignificant && n.kind != .htmlComment)) = p at hm
      have hsplit := takeWhile_dropWhile_reverse p e.nodes.reverse
      generalize e.nodes.reverse.takeWhile p = outer at hsplit hm
      generalize (e.nodes.reverse.dropWhile p).reverse.takeWhile p = closing at hsplit hm
      generalize ((e.nodes.reverse.dropWhile p).reverse.dropWhile p).reverse = middle at hsplit hm
      have hmem : ∀ m ∈ outer ++ (middle ++ closing.reverse), m.Shaped := fun m hm => by
        rw [hsplit] at hm
        exact he m (List.mem_reverse.mp hm)
      rcases List.mem_append.mp (List.mem_reverse.mp hm) with hm | hm
      · exact hmem m (by simp [hm])
      · rcases List.mem_cons.mp hm with rfl | hm
        · exact .hidden rfl
        · exact hmem m (by simp [List.mem_reverse.mp hm])

theorem adds_block (d : Draft source) : Adds One d (block (fuel + 1) d) := by
  rw [block]
  split
  · exact adds_enclose_hidden rfl _ d
  · exact adds_missing d

/-- A sentence that may not end where it does is a fault. -/
theorem adds_sentence {kind : Kind} {read : Draft source → Draft source} {d : Draft source}
    (h : ∀ e : Draft source, e = (read (fresh d.cursor)).semicolon.2 →
      Nodes One (e.close kind d.cursor).nodes) : Adds One d (d.sentence kind read) := by
  have heq : d.sentence kind read = d.append ((read (fresh d.cursor)).semicolon.2.close
      (if (read (fresh d.cursor)).semicolon.1 then kind else .error) d.cursor) := rfl
  rw [heq]
  generalize (read (fresh d.cursor)).semicolon = outcome at h ⊢
  refine .of_nodes ?_ d
  cases outcome.1 with
  | true => exact h outcome.2 rfl
  | false => exact .inl rfl

theorem adds_sentence_hidden {kind : Kind} (hk : kind.isOpaque = true)
    (read : Draft source → Draft source) (d : Draft source) : Adds One d (d.sentence kind read) :=
  adds_sentence fun _ _ => nodes_close_hidden hk _ _

theorem adds_semicolon (d : Draft source) : Adds All d d.semicolon.2 := by
  unfold semicolon
  split
  · exact (adds_gap_all d).append_all (adds_sign 1 _)
  · exact adds_self fun _ h => absurd h List.not_mem_nil

theorem hasFault_toStatement (n : Node source) : n.toStatement.hasFault = n.hasFault := by
  cases n with
  | leaf k m s => rfl
  | branch k a b ns =>
    rw [toStatement]
    split
    · rfl
    · rename_i hk
      have hstatement : Kind.statement.isFault = false := rfl
      rw [hasFault, hasFault, hstatement, Bool.eq_false_iff.mpr hk]

theorem Node.Shaped.toStatement {n : Node source} (hn : n.Shaped) : n.toStatement.Shaped := by
  cases n with
  | leaf k m s => exact hn
  | branch k a b ns =>
    rw [Node.toStatement]
    split
    · exact hn
    · exact .hidden rfl

theorem Adds.toStatement (h : Adds One d e) : Adds One d (e.retag (·.toStatement)) := by
  obtain ⟨added, hadded, h⟩ := h
  cases added with
  | nil =>
    rcases h with h | ⟨n, h, _⟩
    · exact absurd h Bool.false_ne_true
    · exact absurd h (by simp)
  | cons n added =>
    refine ⟨n.toStatement :: added, by unfold retag; rw [hadded]; rfl, ?_⟩
    rcases h with h | ⟨m, heq, hm⟩
    · left
      rw [anyFault, hasFault_toStatement]
      exact h
    · obtain ⟨rfl, rfl⟩ := List.cons.inj heq
      exact .inr ⟨_, rfl, hm.toStatement⟩

section Steps

variable (h : Reads source fuel)
include h

theorem adds_templateTail (d : Draft source) : Adds Quoted d (templateTail (fuel + 1) d) := by
  have hfragment := adds_fragment (Lexeme.templateFragment d.rest) d
  rw [templateTail]
  generalize (if Lexeme.templateFragment d.rest = 0 then d else
    d.token .fragment (Lexeme.templateFragment d.rest)) = e at hfragment ⊢
  refine hfragment.append_quoted ?_
  split
  · exact adds_missing e
  · exact adds_quoted_token rfl 1 e
  · exact (adds_escape _ e).append_quoted (h.templateTail _)
  · have hsubstitution : Adds Quoted e (e.enclose .substitution fun b =>
        ((expressions fuel (b.sign 2).space).gap.expect "\x7d")) :=
      ⟨[_], rfl, .inr fun n hn => .inr ⟨_, _, _, List.mem_singleton.mp hn⟩⟩
    exact hsubstitution.append_quoted (h.templateTail _)

theorem adds_template (d : Draft source) : Adds One d (template (fuel + 1) d) := by
  rw [template]
  refine adds_quoted rfl (Adds.nodes (c := d.cursor) ?_)
  exact (adds_quoted_token rfl 1 _).append_quoted (h.templateTail _)

/-! ### Expressions -/

theorem adds_expressions (d : Draft source) : Adds One d (expressions (fuel + 1) d) := by
  rw [expressions]
  exact .of_nodes (h.expressionsTail _ _ (h.expression _).nodes) d

theorem nodes_expressionsTail (start : Text.Cursor source) (e : Draft source)
    (he : Nodes One e.nodes) : Nodes One (expressionsTail (fuel + 1) start e).nodes := by
  rw [expressionsTail]
  split
  · exact h.expressionsTail _ _ (nodes_close_hidden rfl _ _)
  · exact he

theorem adds_expression (d : Draft source) : Adds One d (expression (fuel + 1) d) := by
  rw [expression]
  have hoperand := (h.operand (.fresh d.cursor)).nodes
  have htail := h.binaryTail d.cursor _ hoperand
  split
  · exact adds_hidden rfl _ _ _
  · exact .of_nodes htail d

theorem nodes_binaryTail (start : Text.Cursor source) (e : Draft source)
    (he : Nodes One e.nodes) : Nodes One (binaryTail (fuel + 1) start e).nodes := by
  rw [binaryTail]
  split
  · exact he
  · exact h.binaryTail _ _ (nodes_close_hidden rfl _ _)

/-- An operand under a sign. -/
theorem adds_unary (n : Nat) (d : Draft source) : Adds One d
    (d.append ((operand fuel ((fresh d.cursor).sign n).space).close .unary d.cursor)) := by
  refine .of_nodes (nodes_close ?_) d
  obtain ⟨layout, hlayout, hblank⟩ := adds_space ((fresh d.cursor).sign n)
  obtain ⟨added, hadded, hone⟩ := h.operand ((fresh d.cursor).sign n).space
  rw [hadded, hlayout, anyFault_append, anyFault_append]
  rcases hone with hone | ⟨value, rfl, hvalue⟩
  · simp [hone]
  rcases hblank with hblank | hblank
  · simp [hblank]
  refine .inr ?_
  have hreverse : ([value] ++ (layout ++ ((fresh d.cursor).sign n).nodes)).reverse =
      .leaf .punctuation d.cursor.mark (d.cursor.peek n) :: layout.reverse ++ [value] := by
    simp [fresh, sign, token]
  rw [hreverse]
  exact .unary (fun n hn => hblank n (List.mem_reverse.mp hn)) hvalue

theorem adds_operand (d : Draft source) : Adds One d (operand (fuel + 1) d) := by
  rw [operand]
  split
  · exact adds_enclose_hidden rfl _ d
  split
  · exact adds_unary h 1 d
  split
  · exact adds_unary h _ d
  · exact adds_unary h _ d
  · exact adds_unary h _ d
  · exact adds_enclose_hidden rfl _ d
  · exact adds_enclose_hidden rfl _ d
  · exact h.postfixed d

theorem adds_postfixed (d : Draft source) : Adds One d (postfixed (fuel + 1) d) := by
  rw [postfixed]
  exact .of_nodes (h.assigned _ _ (h.postfixTail _ _ _ (h.primary _).nodes)) d

theorem nodes_postfixTail (calls : Bool) (start : Text.Cursor source) (e : Draft source)
    (he : Nodes One e.nodes) : Nodes One (postfixTail (fuel + 1) calls start e).nodes := by
  have hgoes : ∀ k, k.isOpaque = true → ∀ f : Draft source,
      Nodes One (postfixTail fuel calls start (f.close k start)).nodes :=
    fun k hk f => h.postfixTail calls start _ (nodes_close_hidden hk start f)
  rw [postfixTail]
  simp only
  split
  · split
    · exact hgoes _ rfl _
    · exact he
  · exact hgoes _ rfl _
  · exact hgoes _ rfl _
  · exact hgoes _ rfl _
  · split
    · exact he
    · split <;> exact hgoes _ rfl _
  · split
    · exact hgoes _ rfl _
    · exact he
  · split
    · exact hgoes _ rfl _
    · exact he
  · exact he

theorem adds_listed (k : Kind) (hk : k.isListing = true) (l : Listing) (d : Draft source) :
    Adds One d (d.enclose k fun b => entries fuel l (b.sign 1)) :=
  adds_listing hk ((adds_sign 1 _).append_all (h.entries l _)).nodes

theorem adds_primary (d : Draft source) : Adds One d (primary (fuel + 1) d) := by
  rw [primary]
  split
  · exact h.parenthesized d
  · exact adds_listed h .array rfl .items d
  · exact adds_listed h .object rfl .members d
  · exact adds_one_quoted _ d
  · exact adds_one_quoted _ d
  · exact h.template d
  · exact h.element d
  · simp only
    split
    · exact ⟨[_], rfl, .inl rfl⟩
    · exact adds_one_token rfl rfl _ d
  · split
    · exact h.astray d
    · split
      · exact adds_one_token rfl rfl _ d
      · exact ⟨[_], rfl, .inl rfl⟩
  · exact adds_enclose_hidden rfl _ d
  · split
    · exact adds_one_token rfl rfl _ d
    · split
      · exact h.worded d
      · exact h.astray d

theorem adds_astray (d : Draft source) : Adds One d (astray (fuel + 1) d) := by
  rw [astray]
  split
  · exact adds_missing d
  · exact (adds_stray d).of_fault ((adds_space_all _).append_all (h.operand _).all)

theorem adds_worded (d : Draft source) : Adds One d (worded (fuel + 1) d) := by
  rw [worded]
  split
  · exact adds_one_token rfl rfl _ d
  · exact adds_one_token rfl rfl _ d
  · exact adds_one_token rfl rfl _ d
  · exact adds_one_token rfl rfl _ d
  · exact adds_one_token rfl rfl _ d
  · exact adds_one_token rfl rfl _ d
  · exact h.functionFrom _ d
  · exact adds_enclose_hidden rfl _ d
  · exact h.newFrom d
  · simp only
    split
    · exact adds_one_token rfl rfl _ d
    · exact (adds_missing d).of_fault (Adds.all (adds_stray _))
  · simp only
    split
    · exact h.functionFrom _ d
    · split
      · split
        · exact adds_hidden rfl _ _ _
        · exact adds_hidden rfl _ _ _
      · split
        · exact adds_enclose_hidden rfl _ d
        · exact h.named d
  · exact h.named d

/-! ### Lists in brackets -/

theorem adds_entries (l : Listing) (d : Draft source) : Adds All d (entries (fuel + 1) l d) := by
  have hspace := adds_space_all d
  rw [entries]
  split
  · exact adds_missing d
  · split
    · exact hspace.append_all (adds_sign 1 _)
    · split
      · exact (hspace.append_all (adds_sign 1 _)).append_all (h.entries l _)
      · split
        · exact adds_missing d
        · exact (hspace.append_all (h.entry l _).all).append_all (h.entriesAfter l _)

theorem adds_entriesAfter (l : Listing) (d : Draft source) :
    Adds All d (entriesAfter (fuel + 1) l d) := by
  have hgap := adds_gap_all d
  rw [entriesAfter]
  split
  · exact adds_missing d
  · split
    · exact hgap.append_all (adds_sign 1 _)
    · split
      · exact (hgap.append_all (adds_sign 1 _)).append_all (h.entries l _)
      · split
        · exact adds_missing d
        · exact (hgap.append_all (adds_error _ _ _)).append_all (h.entriesAfter l _)

theorem adds_entry (l : Listing) (d : Draft source) : Adds One d (entry (fuel + 1) l d) := by
  unfold entry
  split
  · exact adds_enclose_hidden rfl _ d
  · split
    · exact h.member d
    · exact h.expression d

theorem adds_member (d : Draft source) : Adds One d (member (fuel + 1) d) := by
  rw [member]
  split
  · exact adds_enclose_hidden rfl _ d
  · simp only
    split
    · exact adds_enclose_hidden rfl _ d
    · split
      · exact .of_nodes (h.memberTail _ _ (h.propertyName _).nodes) d
      · exact adds_error _ _ _

/-- A pair is its key, a colon and its value, with white space and comments between. -/
theorem nodes_close_pair (start : Text.Cursor source) {e : Draft source} {cs : List Char}
    (he : Nodes One e.nodes) (hcolon : e.space.rest = ':' :: cs) :
    Nodes One ((expression fuel (e.space.sign 1).space).close .pair start).nodes := by
  obtain ⟨before, hbefore, hspace⟩ := adds_space e
  obtain ⟨after, hafter, hspace'⟩ := adds_space (e.space.sign 1)
  obtain ⟨added, hadded, hvalue⟩ := h.expression (e.space.sign 1).space
  have hsign : (e.space.sign 1).nodes =
      .leaf .punctuation e.space.cursor.mark ":" :: e.space.nodes := by
    have hpeek : e.space.cursor.peek 1 = ":" := by
      unfold Text.Cursor.peek
      unfold Draft.rest at hcolon
      rw [hcolon]
      rfl
    unfold sign token
    rw [hpeek]
  have hnodes := hadded
  rw [hafter, hsign, hbefore] at hnodes
  refine nodes_close ?_
  rw [hnodes, anyFault_append, anyFault_append, anyFault, anyFault_append]
  rcases he with he | ⟨key, hkey, hkeyShaped⟩
  · simp [he]
  rcases hspace with hspace | hspace
  · simp [hspace]
  rcases hspace' with hspace' | hspace'
  · simp [hspace']
  rcases hvalue with hvalue | ⟨value, rfl, hvalue⟩
  · simp [hvalue]
  refine .inr ?_
  have hreverse : ([value] ++ (after ++ Node.leaf .punctuation e.space.cursor.mark ":" ::
      (before ++ e.nodes))).reverse =
      key :: before.reverse ++ .leaf .punctuation e.space.cursor.mark ":" :: after.reverse ++
        [value] := by
    simp [hkey]
  rw [hreverse]
  exact .pair hkeyShaped (fun n hn => hspace n (List.mem_reverse.mp hn))
    (fun n hn => hspace' n (List.mem_reverse.mp hn)) hvalue

theorem nodes_memberTail (start : Text.Cursor source) (e : Draft source) (he : Nodes One e.nodes) :
    Nodes One (memberTail (fuel + 1) start e).nodes := by
  unfold memberTail
  simp only
  split
  · rename_i hcolon
    exact nodes_close_pair h start he hcolon
  · exact nodes_close_hidden rfl _ _
  · split
    · rename_i hkey
      split
      · exact .inl rfl
      · unfold retag
        rw [hkey]
        exact .inr ⟨_, rfl, .leaf rfl rfl⟩
    · refine .inl ?_
      rw [close, anyFault, hasFault_of_anyFault]
      · rfl
      · rw [anyFault_reverse]
        rfl

/-! ### Parentheses -/

theorem adds_parenthesized (d : Draft source) : Adds One d (parenthesized (fuel + 1) d) := by
  rw [parenthesized]
  split
  · exact adds_hidden rfl _ _ _
  · exact .of_nodes (nodes_asParenthesized
      ((adds_sign 1 _).append_all (h.entries .values _)).nodes) d

/-! ### Statements -/

theorem adds_expressionStatement (d : Draft source) :
    Adds One d (d.sentence .expressionStatement (expressions fuel)) := by
  refine adds_sentence fun e he => nodes_close ?_
  have hread : Nodes All e.nodes := by
    rw [he]
    exact ((h.expressions _).all.append_all (adds_semicolon _)).nodes
  exact hread.imp_right fun hread => .listing rfl fun n hn => hread n (List.mem_reverse.mp hn)

theorem adds_plain (d : Draft source) : Adds All d (plain (fuel + 1) d) := by
  rw [plain]
  split
  · exact (adds_enclose_hidden rfl _ d).all
  · split
    · exact (adds_expressionStatement h d).all
    · exact adds_stray d

theorem adds_statement (d : Draft source) : Adds All d (statement (fuel + 1) d) := by
  unfold statement
  split
  · exact (h.block d).all
  · exact (adds_enclose_hidden rfl _ d).all
  · exact (adds_enclose_hidden rfl _ d).all
  · simp only
    split
    · exact (adds_enclose_hidden rfl _ d).all
    · exact (adds_enclose_hidden rfl _ d).all
    · exact (adds_enclose_hidden rfl _ d).all
    · exact (adds_enclose_hidden rfl _ d).all
    · exact (adds_enclose_hidden rfl _ d).all
    · exact (adds_enclose_hidden rfl _ d).all
    · exact (adds_enclose_hidden rfl _ d).all
    · exact (adds_sentence_hidden rfl _ d).all
    · exact (adds_sentence_hidden rfl _ d).all
    · exact (adds_sentence_hidden rfl _ d).all
    · exact (adds_sentence_hidden rfl _ d).all
    · exact (adds_sentence_hidden rfl _ d).all
    · exact (adds_sentence_hidden rfl _ d).all
    · exact (adds_sentence_hidden rfl _ d).all
    · split
      · exact (adds_sentence_hidden rfl _ d).all
      · exact h.plain d
    · exact (h.functionFrom _ d).toStatement.all
    · split
      · exact (h.functionFrom _ d).toStatement.all
      · exact h.plain d
    · exact (adds_enclose_hidden rfl _ d).all
    · split
      · exact h.plain d
      · exact (adds_sentence_hidden rfl _ d).all
    · split
      · exact (adds_sentence_hidden rfl _ d).all
      · split
        · exact (adds_enclose_hidden rfl _ d).all
        · split
          · exact (adds_enclose_hidden rfl _ d).all
          · exact h.plain d
    · exact h.plain d

theorem reads_succ : Reads source (fuel + 1) where
  expressions := adds_expressions h
  expressionsTail := nodes_expressionsTail h
  expression := adds_expression h
  binaryTail := nodes_binaryTail h
  operand := adds_operand h
  postfixed := adds_postfixed h
  postfixTail := nodes_postfixTail h
  assigned := nodes_assigned
  primary := adds_primary h
  astray := adds_astray h
  worded := adds_worded h
  named := adds_named
  parenthesized := adds_parenthesized h
  newFrom := adds_newFrom
  entries := adds_entries h
  entriesAfter := adds_entriesAfter h
  entry := adds_entry h
  member := adds_member h
  memberTail := nodes_memberTail h
  propertyName := adds_propertyName
  functionFrom := adds_functionFrom
  template := adds_template h
  templateTail := adds_templateTail h
  element := adds_element
  block := adds_block
  statement := adds_statement h
  plain := adds_plain h

end Steps

/-! ### Whole texts -/

theorem reads (fuel : Nat) : Reads source fuel := by
  induction fuel with
  | zero => exact reads_zero
  | succ fuel ih => exact reads_succ ih

theorem adds_programTail (fuel steps : Nat) (d : Draft source) :
    Adds All d (programTail steps fuel d) := by
  induction steps generalizing d with
  | zero => exact adds_missing d
  | succ steps ih =>
    rw [programTail]
    split
    · exact adds_space_all d
    · exact ((adds_space_all d).append_all ((reads fuel).statement _)).append_all (ih _)

/-- A tree without a fault is as it should be. -/
theorem shaped_parse {source : List Char} (h : (parse source).firstFault? = none) :
    (parse source).Shaped := by
  have hfault : (parse source).hasFault = false := by
    rw [hasFault_iff_firstFault?, h]
    rfl
  have hstart : Adds All (fresh (Text.Cursor.start source))
      (if beginsWith "#!" (fresh (Text.Cursor.start source)) then
        (fresh (Text.Cursor.start source)).token .other
          ((fresh (Text.Cursor.start source)).rest.takeWhile (· != '\n')).length
      else fresh (Text.Cursor.start source)) := by
    split
    · exact (adds_one_token rfl rfl _ _).all
    · exact adds_self fun _ h => absurd h List.not_mem_nil
  have hall := (hstart.append_all
    (adds_programTail (16 * source.length + 64) (source.length + 1) _)).nodes
  unfold parse at hfault ⊢
  rcases hall with hall | hall
  · rw [← anyFault_reverse] at hall
    rw [hasFault_of_anyFault hall] at hfault
    exact Bool.noConfusion hfault
  · exact .listing rfl fun n hn => hall n (List.mem_reverse.mp hn)

end Workyard.Script
