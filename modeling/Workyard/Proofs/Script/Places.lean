import Workyard.Proofs.Script.Growing

/-!
# Where nodes stand

The nodes of a tree stand in the text in the order in which the tree has them: the children of a
node one behind the other, all of them from its start on. A call moreover ends before whatever
follows it. Hence the calls of a tree, outer ones first, come in the order of the text.

The end of other nodes is not looked at. What is taken for a pattern or for a sequence keeps a mark
that need not be where its text ends.
-/

namespace Workyard.Script

set_option autoImplicit false

open Node Draft Text

variable {source : List Char}

theorem Kind.ne_call_of_isGroup {k : Kind} (hk : k.isGroup = true) : k ≠ .call := by
  rintro rfl
  exact Bool.false_ne_true hk

/-- The text stands in the source from the mark on. -/
def WrittenAt (m : Mark source) (s : String) : Prop :=
  ∃ before after, source = before ++ (s.toList ++ after) ∧ m.offset = byteLength before

mutual

/-- The node stands between two offsets, and so does all that is below it. -/
inductive Placed : Nat → Nat → Node source → Prop
  | leaf {lo hi k m s} (hlo : lo ≤ m.offset) (hhi : m.offset + byteLength s.toList ≤ hi)
      (hs : WrittenAt m s) (hk : k.isLayout = true → s ≠ "") : Placed lo hi (.leaf k m s)
  | call {lo hi a b ns} (hlo : lo ≤ a.offset) (hhi : b.offset ≤ hi)
      (h : InTurn a.offset b.offset ns) (hns : Nodes Called ns.reverse) :
      Placed lo hi (.branch .call a b ns)
  | branch {lo hi k a b ns} (hlo : lo ≤ a.offset) (hk : k.isGroup = true)
      (h : InTurn a.offset hi ns) : Placed lo hi (.branch k a b ns)

/-- The nodes stand between two offsets, one behind the other. -/
inductive InTurn : Nat → Nat → List (Node source) → Prop
  | nil {lo hi} (h : lo ≤ hi) : InTurn lo hi []
  | cons {lo mid hi n ns} (h : Placed lo mid n) (h' : InTurn mid hi ns) : InTurn lo hi (n :: ns)

end

theorem InTurn.mono_right {lo hi hi' : Nat} {ns : List (Node source)} (h : InTurn lo hi ns)
    (hhi : hi ≤ hi') : InTurn lo hi' ns := by
  induction ns generalizing lo with
  | nil =>
    cases h with
    | nil h => exact .nil (h.trans hhi)
  | cons n ns ih =>
    cases h with
    | cons h h' => exact .cons h (ih h')

theorem Placed.mono {lo hi lo' hi' : Nat} {n : Node source} (h : Placed lo hi n) (hlo : lo' ≤ lo)
    (hhi : hi ≤ hi') : Placed lo' hi' n := by
  cases h with
  | leaf hlo₁ hhi₁ hs hk => exact .leaf (hlo.trans hlo₁) (hhi₁.trans hhi) hs hk
  | call hlo₁ hhi₁ h hns => exact .call (hlo.trans hlo₁) (hhi₁.trans hhi) h hns
  | branch hlo₁ hk h => exact .branch (hlo.trans hlo₁) hk (h.mono_right hhi)

theorem Placed.lo_le_start {lo hi : Nat} {n : Node source} (h : Placed lo hi n) :
    lo ≤ n.start.offset := by
  cases h with
  | leaf hlo => exact hlo
  | call hlo => exact hlo
  | branch hlo => exact hlo

mutual

theorem Placed.start_le_hi {lo hi : Nat} {n : Node source} (h : Placed lo hi n) :
    n.start.offset ≤ hi := by
  cases h with
  | leaf _ hhi => exact (Nat.le_add_right _ _).trans hhi
  | call _ hhi h => exact h.le.trans hhi
  | branch _ _ h => exact h.le
termination_by sizeOf n

theorem InTurn.le {lo hi : Nat} {ns : List (Node source)} (h : InTurn lo hi ns) : lo ≤ hi := by
  cases h with
  | nil h => exact h
  | cons h h' => exact (h.lo_le_start.trans h.start_le_hi).trans h'.le
termination_by sizeOf ns

end

section

variable {lo mid hi lo' : Nat} {n : Node source} {ns ms : List (Node source)}

theorem InTurn.mono_left (h : InTurn lo hi ns) (hlo : lo' ≤ lo) : InTurn lo' hi ns := by
  cases h with
  | nil h => exact .nil (hlo.trans h)
  | cons h h' => exact .cons (h.mono hlo le_rfl) h'

/-- A node stands behind its own start. -/
theorem Placed.from_start (h : Placed lo hi n) : Placed n.start.offset hi n := by
  cases h with
  | leaf _ hhi hs hk => exact .leaf le_rfl hhi hs hk
  | call _ hhi h hns => exact .call le_rfl hhi h hns
  | branch _ hk h => exact .branch le_rfl hk h

theorem InTurn.single (h : Placed lo hi n) : InTurn lo hi [n] :=
  .cons h (.nil le_rfl)

theorem InTurn.append (h : InTurn lo mid ns) (h' : InTurn mid hi ms) : InTurn lo hi (ns ++ ms) := by
  induction ns generalizing lo with
  | nil =>
    cases h with
    | nil h => exact h'.mono_left h
  | cons n ns ih =>
    cases h with
    | cons hn hns => exact .cons hn (ih hns)

theorem InTurn.split (h : InTurn lo hi (ns ++ ms)) :
    ∃ mid, InTurn lo mid ns ∧ InTurn mid hi ms := by
  induction ns generalizing lo with
  | nil => exact ⟨lo, .nil le_rfl, h⟩
  | cons n ns ih =>
    cases h with
    | cons hn hns =>
      obtain ⟨mid, hleft, hright⟩ := ih hns
      exact ⟨mid, .cons hn hleft, hright⟩

theorem InTurn.of_mem (h : InTurn lo hi ns) (hn : n ∈ ns) : Placed lo hi n := by
  obtain ⟨before, after, rfl⟩ := List.append_of_mem hn
  obtain ⟨mid, hbefore, hrest⟩ := h.split
  cases hrest with
  | cons h hafter => exact h.mono hbefore.le hafter.le

theorem InTurn.reverse_concat (h : InTurn lo mid ns.reverse) (hn : Placed mid hi n) :
    InTurn lo hi (n :: ns).reverse := by
  rw [List.reverse_cons]
  exact h.append (.single hn)

end

/-! ### Nodes that are taken for something else -/

mutual

theorem Placed.toPattern {lo hi : Nat} {n : Node source} (h : Placed lo hi n) :
    Placed lo hi n.toPattern := by
  have herror : ∀ m : Mark source, n.start = m → ∀ b, Placed lo hi (.branch .error m b [n]) := by
    rintro m rfl b
    exact .branch h.lo_le_start rfl (.single h.from_start)
  cases n with
  | leaf k m s =>
    unfold Node.toPattern
    split
    all_goals first | exact h | exact herror m rfl m
  | branch k a b ns =>
    -- Only nodes that are no calls are kept with other children; a call stands below a fault.
    have hkept : k.isGroup = true → InTurn a.offset hi ns := by
      intro hk
      cases h with
      | call => exact absurd hk Bool.false_ne_true
      | branch _ _ h => exact h
    have hlo : lo ≤ a.offset := h.lo_le_start
    unfold Node.toPattern
    split
    case h_4 => exact .branch hlo rfl (hkept rfl).valueToPattern
    case h_5 => exact .branch hlo rfl (hkept rfl)
    all_goals first
      | exact .branch hlo rfl (hkept rfl).toPatterns
      | exact h
      | exact herror a rfl b
termination_by sizeOf n

theorem InTurn.toPatterns {lo hi : Nat} {ns : List (Node source)} (h : InTurn lo hi ns) :
    InTurn lo hi (toPatterns ns) := by
  cases h with
  | nil h => exact .nil h
  | cons h h' => exact .cons h.toPattern h'.toPatterns
termination_by sizeOf ns

theorem InTurn.valueToPattern {lo hi : Nat} {ns : List (Node source)} (h : InTurn lo hi ns) :
    InTurn lo hi (valueToPattern ns) := by
  cases h with
  | nil h => exact .nil h
  | @cons _ mid _ n ns h h' =>
    cases ns with
    | nil => exact .cons h.toPattern h'
    | cons m ns => exact .cons h h'.valueToPattern
termination_by sizeOf ns

end

section

variable {lo hi : Nat} {n : Node source}

theorem Placed.toParameters (h : Placed lo hi n) (hn : n.kind ≠ .call) :
    Placed lo hi n.toParameters := by
  cases h with
  | leaf hlo hhi hs hk => exact .leaf hlo hhi hs hk
  | call => exact absurd rfl hn
  | branch hlo hk h => exact .branch hlo hk h.toPatterns

theorem Placed.toStatement (h : Placed lo hi n) : Placed lo hi n.toStatement := by
  cases n with
  | leaf k m s => exact h
  | branch k a b ns =>
    rw [Node.toStatement]
    split
    · exact h
    · cases h with
      | call hlo hhi h => exact .branch hlo rfl (h.mono_right hhi)
      | branch hlo _ h => exact .branch hlo rfl h

theorem Placed.retold {m : Node source} (h : Placed lo hi n) (hm : Retold n m) :
    Placed lo hi m := by
  cases hm with
  | pattern => exact h.toPattern
  | parameters _ hn => exact h.toParameters hn
  | statement => exact h.toStatement
  | shorthand m s =>
    cases h with
    | leaf hlo hhi hs _ => exact .leaf hlo hhi hs (fun hk => absurd hk (by decide))

end

/-! ### Drafts -/

theorem utf8ByteSize_ofList (cs : List Char) : (String.ofList cs).utf8ByteSize = byteLength cs := by
  induction cs with
  | nil => rfl
  | cons c cs ih =>
    rw [String.ofList_cons, String.utf8ByteSize_append, String.utf8ByteSize_singleton, ih,
      byteLength_cons]

theorem utf8ByteSize_eq (s : String) : s.utf8ByteSize = byteLength s.toList := by
  rw [← utf8ByteSize_ofList, String.ofList_toList]

theorem byteLength_pos {cs : List Char} (h : cs ≠ []) : 0 < byteLength cs := by
  cases cs with
  | nil => exact absurd rfl h
  | cons c cs => exact Nat.add_pos_left c.utf8Size_pos _

theorem writtenAt_peek (c : Cursor source) (n : Nat) : WrittenAt c.mark (c.peek n) := by
  obtain ⟨before, hsource, hoffset⟩ := c.split
  refine ⟨before, c.rest.drop n, ?_, hoffset⟩
  rw [Cursor.peek, String.toList_ofList, List.take_append_drop]
  exact hsource

theorem placed_token {d : Draft source} {k : Kind} {n : Nat}
    (hk : k.isLayout = true → d.rest.take n ≠ []) :
    Placed d.cursor.offset (d.cursor.skip n).offset (.leaf k d.cursor.mark (d.cursor.peek n)) := by
  refine .leaf le_rfl (le_of_eq ?_) (writtenAt_peek _ _) fun hlayout hempty => hk hlayout ?_
  · rw [Cursor.peek, String.toList_ofList]
    rfl
  · have hchars := congrArg String.toList hempty
    rwa [Cursor.peek, String.toList_ofList] at hchars

theorem placed_missing (c : Cursor source) :
    Placed c.offset c.offset (.leaf .missing c.mark "" : Node source) := by
  obtain ⟨before, hsource, hoffset⟩ := c.split
  exact .leaf le_rfl le_rfl ⟨before, c.rest, hsource, hoffset⟩ fun h => absurd h (by decide)

/-- What is left without the ends where `p` does not hold begins with the first where it does. -/
theorem exists_middle {α : Type} {p : α → Bool} {ns items : List α} {n : α}
    (hitems : ns.filter p = n :: items) : ∃ middle,
      ((ns.dropWhile fun m => !p m).reverse.dropWhile fun m => !p m).reverse = n :: middle := by
  have hdrop : ∃ tail, ns.dropWhile (fun m => !p m) = n :: tail := by
    induction ns with
    | nil => cases hitems
    | cons m ns ih =>
      cases hm : p m with
      | false =>
        rw [List.filter_cons_of_neg (by simp [hm])] at hitems
        simpa [List.dropWhile_cons, hm] using ih hitems
      | true =>
        rw [List.filter_cons_of_pos hm] at hitems
        obtain ⟨rfl, -⟩ := List.cons.inj hitems
        exact ⟨ns, by simp [hm]⟩
  have hn : p n = true := List.of_mem_filter (by rw [hitems]; exact List.mem_cons_self)
  obtain ⟨tail, htail⟩ := hdrop
  rw [htail, List.reverse_cons, List.dropWhile_append]
  split
  · exact ⟨[], by simp [hn]⟩
  · exact ⟨_, by rw [List.reverse_append]; rfl⟩

@[simp] theorem cursor_asParenthesized (c : Cursor source) (d : Draft source) :
    (d.asParenthesized c).cursor = d.cursor := by
  unfold asParenthesized
  simp only
  split
  · rfl
  · split <;> rfl
  · split <;> rfl

/-- The children that become a sequence stand there as before, from the first of them on. -/
theorem inTurn_parentheses {c : Cursor source} {d : Draft source}
    (h : InTurn c.offset d.cursor.offset d.nodes.reverse) :
    InTurn c.offset d.cursor.offset (d.asParenthesized c).nodes.reverse := by
  have hclosed : ∀ k, k.isGroup = true → ∀ ns : List (Node source),
      InTurn c.offset d.cursor.offset ns.reverse →
      InTurn c.offset d.cursor.offset (Draft.close k c ⟨ns, d.cursor⟩).nodes.reverse :=
    fun k hk ns h => .single (.branch le_rfl hk h)
  unfold asParenthesized
  simp only
  split
  · exact hclosed _ rfl _ (h.reverse_concat (placed_missing _))
  · split
    · exact hclosed _ rfl _ h
    · exact hclosed _ rfl _ h
  · rename_i n ns hitems
    split
    · exact hclosed _ rfl _ h
    · refine hclosed _ rfl _ ?_
      -- The sequence begins where the first item does, and ends before what is left outside.
      obtain ⟨middle, hmiddle⟩ := exists_middle hitems
      have hsplit := takeWhile_dropWhile_reverse
        (fun m : Node source => !(m.kind.isSignificant && m.kind != .htmlComment)) d.nodes.reverse
      rw [hmiddle] at hsplit ⊢
      rw [← hsplit] at h
      obtain ⟨mid, houter, hrest⟩ := h.split
      obtain ⟨mid', hinner, hclosing⟩ := hrest.split
      rw [List.reverse_append, List.reverse_cons, List.reverse_reverse]
      cases hinner with
      | cons hn hmiddle => exact (houter.append (.single
          (.branch hn.lo_le_start rfl (.cons hn.from_start hmiddle)))).append hclosing

/-- What was read stands between the place where reading began and the one where it goes on. -/
theorem Grown.inTurn {c : Cursor source} {d : Draft source} (h : Grown c d) :
    InTurn c.offset d.cursor.offset d.nodes.reverse := by
  induction h with
  | fresh c => exact .nil le_rfl
  | token _ hk ih => exact ih.reverse_concat (placed_token fun hlayout => by simp [hk] at hlayout)
  | comment _ _ hn ih => exact ih.reverse_concat (placed_token fun _ => hn)
  | skip _ n ih => exact ih.mono_right (Nat.le_add_right _ _)
  | missing _ ih => exact ih.reverse_concat (placed_missing _)
  | @append c d e _ _ ih ih' =>
    rw [nodes_append, List.reverse_append]
    exact ih.append ih'
  | close _ hk ih => exact .single (.branch le_rfl hk ih)
  | call _ hd ih => exact .single (.call le_rfl le_rfl ih (by rwa [List.reverse_reverse]))
  | @retag c d f _ hf ih =>
    obtain ⟨ns, cursor⟩ := d
    cases ns with
    | nil => exact ih
    | cons n ns =>
      rw [List.reverse_cons] at ih
      obtain ⟨mid, hns, hn⟩ := ih.split
      cases hn with
      | cons hn hnil =>
        exact hns.reverse_concat ((hn.retold (hf n rfl)).mono le_rfl hnil.le)
  | parentheses _ ih =>
    rw [cursor_asParenthesized]
    exact inTurn_parentheses ih

/-! ### The order of the calls -/

namespace Node

mutual

/-- The node with all that is below it, each node before what is below it. -/
def preorder : Node source → List (Node source)
  | leaf k m s => [leaf k m s]
  | branch k a b ns => branch k a b ns :: preorderOf ns

def preorderOf : List (Node source) → List (Node source)
  | [] => []
  | n :: ns => n.preorder ++ preorderOf ns

end

theorem mem_preorderOf {m : Node source} {ns : List (Node source)} :
    m ∈ preorderOf ns ↔ ∃ n ∈ ns, m ∈ n.preorder := by
  induction ns with
  | nil => simp [preorderOf]
  | cons n ns ih => simp [preorderOf, ih]

theorem mem_preorder_branch {k : Kind} {a b : Mark source} {m : Node source}
    {ns : List (Node source)} :
    m ∈ (branch k a b ns).preorder ↔ m = branch k a b ns ∨ ∃ n ∈ ns, m ∈ n.preorder := by
  rw [preorder, List.mem_cons, mem_preorderOf]

/-- The second node is within the first one or behind it. -/
def Precedes (n m : Node source) : Prop :=
  n.stop ≤ m.start.offset ∨ n.start.offset ≤ m.start.offset ∧ m.stop ≤ n.stop

end Node

theorem Placed.bounds {lo hi : Nat} {c : Node source} (h : Placed lo hi c) (hc : c.kind = .call) :
    lo ≤ c.start.offset ∧ c.stop ≤ hi := by
  cases h with
  | leaf hlo hhi =>
    rw [Node.stop, utf8ByteSize_eq]
    exact ⟨hlo, hhi⟩
  | call hlo hhi => exact ⟨hlo, hhi⟩
  | branch _ hk => exact absurd hc (Kind.ne_call_of_isGroup hk)

/-- The children of a node stand behind one another. -/
theorem Placed.children {lo hi : Nat} {n : Node source} (h : Placed lo hi n) :
    InTurn n.start.offset hi n.children := by
  cases h with
  | leaf hlo hhi => exact .nil ((Nat.le_add_right _ _).trans hhi)
  | call _ hhi h => exact h.mono_right hhi
  | branch _ _ h => exact h

theorem Placed.of_mem_preorder {lo hi : Nat} {n m : Node source} (h : Placed lo hi n)
    (hm : m ∈ n.preorder) : Placed lo hi m := by
  cases n with
  | leaf k a s =>
    rw [preorder] at hm
    rwa [List.mem_singleton.mp hm]
  | branch k a b ns =>
    rcases mem_preorder_branch.mp hm with rfl | ⟨n, hn, hm⟩
    · exact h
    · exact ((h.children.of_mem hn).of_mem_preorder hm).mono h.lo_le_start le_rfl
termination_by sizeOf n

theorem InTurn.of_mem_preorder {lo hi : Nat} {m : Node source} {ns : List (Node source)}
    (h : InTurn lo hi ns) (hm : m ∈ preorderOf ns) : Placed lo hi m := by
  obtain ⟨n, hn, hm⟩ := mem_preorderOf.mp hm
  exact (h.of_mem hn).of_mem_preorder hm

/-- Calls in the order of reading: one that comes later is within an earlier one or behind it. -/
def InOrder (ns : List (Node source)) : Prop :=
  ns.Pairwise fun n m => n.kind = .call → m.kind = .call → n.Precedes m

mutual

theorem Placed.inOrder {lo hi : Nat} {n : Node source} (h : Placed lo hi n) :
    InOrder n.preorder := by
  cases h with
  | leaf => exact List.pairwise_singleton _ _
  | call _ _ h =>
    rw [preorder]
    refine List.pairwise_cons.mpr ⟨fun c hc _ hcall => .inr ?_, h.inOrder⟩
    exact (h.of_mem_preorder hc).bounds hcall
  | branch _ hk h =>
    rw [preorder]
    refine List.pairwise_cons.mpr ⟨fun _ _ hcall => ?_, h.inOrder⟩
    exact absurd hcall (Kind.ne_call_of_isGroup hk)
termination_by sizeOf n

theorem InTurn.inOrder {lo hi : Nat} {ns : List (Node source)} (h : InTurn lo hi ns) :
    InOrder (preorderOf ns) := by
  cases h with
  | nil => exact .nil
  | cons h h' =>
    rw [preorderOf]
    refine List.pairwise_append.mpr ⟨h.inOrder, h'.inOrder, fun c hc d hd hcall hcall' => .inl ?_⟩
    exact ((h.of_mem_preorder hc).bounds hcall).2.trans ((h'.of_mem_preorder hd).bounds hcall').1
termination_by sizeOf ns

end

theorem slice_append (before cs after : List Char) :
    slice (before ++ (cs ++ after)) (byteLength before) (byteLength before + byteLength cs) =
      cs := by
  rw [slice, dropBytes_byteLength, Nat.add_sub_cancel_left, takeBytes_byteLength]

/-- The text between two marks is empty or leads from the one to the other. -/
theorem exists_between_marks {a b : Mark source} (h : a.offset ≤ b.offset) :
    ∃ before between after, source = before ++ (between ++ after) ∧ a.offset = byteLength before ∧
      b.offset = a.offset + byteLength between := by
  obtain ⟨before, rest, hsource, ha⟩ := a.boundary
  obtain ⟨before', rest', hsource', hb⟩ := b.boundary
  rcases List.append_eq_append_iff.mp (hsource.symm.trans hsource') with
    ⟨between, rfl, rfl⟩ | ⟨between, rfl, rfl⟩
  · exact ⟨before, between, rest', hsource, ha, by rw [hb, ha, byteLength_append]⟩
  · rw [ha, hb, byteLength_append] at h
    refine ⟨before' ++ between, [], rest, by rw [List.nil_append]; exact hsource, ha, ?_⟩
    rw [ha, hb, byteLength_append, byteLength_nil]
    omega

/-- The text of a node stands at its start. -/
theorem Placed.writtenAt_span {lo hi : Nat} {n : Node source} (h : Placed lo hi n) :
    WrittenAt n.start n.span := by
  have hcut : ∀ before cs after, source = before ++ (cs ++ after) →
      n.start.offset = byteLength before → n.stop = n.start.offset + byteLength cs →
      WrittenAt n.start n.span := by
    intro before cs after hsource hstart hstop
    have hspan : n.span.toList = cs := by
      rw [Node.span, hstop, hstart, hsource, slice_append, String.toList_ofList]
    exact ⟨before, after, by rw [hspan]; exact hsource, hstart⟩
  cases n with
  | leaf k m s =>
    cases h with
    | leaf _ _ hs =>
      obtain ⟨before, after, hsource, hm⟩ := hs
      exact hcut before s.toList after hsource hm (by rw [Node.stop, utf8ByteSize_eq]; rfl)
  | branch k a b ns =>
    by_cases hab : a.offset ≤ b.offset
    · obtain ⟨before, between, after, hsource, ha, hb⟩ := exists_between_marks hab
      exact hcut before between after hsource ha hb
    · have hspan : (Node.branch k a b ns).span = "" := by
        show String.ofList (slice source a.offset b.offset) = ""
        rw [slice, Nat.sub_eq_zero_of_le (Nat.le_of_not_le hab), takeBytes_zero]
      obtain ⟨before, after, hsource, ha⟩ := a.boundary
      exact ⟨before, after, by rw [hspan]; exact hsource, ha⟩

/-- The nodes of a tree stand in its text. -/
theorem placed_parse (source : List Char) : Placed 0 (byteLength source) (parse source) := by
  obtain ⟨d, hd, heq⟩ := exists_grown source
  rw [heq]
  exact .branch le_rfl rfl (hd.inTurn.mono_right d.cursor.mark.boundary.le)

end Workyard.Script
