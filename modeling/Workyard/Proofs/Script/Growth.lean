import Workyard.Proofs.Script.Twins

/-!
# How drafts grow

Whatever the grammar reads, it makes drafts in a few ways only: it takes a token, passes over
blanks, puts one draft behind another, makes a node of all that was read, or takes what it has read
for something else. What holds of every draft is shown once for each of these ways.
-/

namespace Workyard.Script

set_option autoImplicit false

open Node Draft Text

variable {source : List Char}

/-- What may stand between a callee and what it is called with. -/
def Kind.isFiller : Kind → Bool
  | .punctuation | .comment | .htmlComment => true
  | _ => false

/-- Kinds of the nodes that are made of others, calls apart. -/
def Kind.isGroup : Kind → Bool
  | .call | .comment | .htmlComment => false
  | _ => true

/-- What a callee is called with. -/
def Kind.isOperands : Kind → Bool
  | .arguments | .template => true
  | _ => false

/-- The nodes of a call, the latest first. -/
def Called (ns : List (Node source)) : Prop :=
  ∃ callee between operands, ns = operands :: (between ++ [callee]) ∧
    (∀ n ∈ between, n.IsLeafOf Kind.isFiller) ∧ operands.kind.isOperands = true

/-- What the grammar takes a node for that it has read before. -/
inductive Retold : Node source → Node source → Prop
  | pattern (n) : Retold n n.toPattern
  | parameters (n) (hn : n.kind ≠ .call) : Retold n n.toParameters
  | statement (n) : Retold n n.toStatement
  | shorthand (m s) : Retold (.leaf .propertyName m s) (.leaf .shorthand m s)

/-- The draft holds what was read from the place on. -/
inductive Grown : Cursor source → Draft source → Prop
  | fresh (c) : Grown c (fresh c)
  | token {c d k n} (h : Grown c d) (hk : k.isLayout = false) : Grown c (d.token k n)
  | comment {c d k n} (h : Grown c d) (hk : k.isLayout = true) (hn : d.rest.take n ≠ []) :
      Grown c (d.token k n)
  | skip {c d} (h : Grown c d) (n) : Grown c ⟨d.nodes, d.cursor.skip n⟩
  | missing {c d} (h : Grown c d) : Grown c d.missing
  | append {c d e} (h : Grown c d) (h' : Grown d.cursor e) : Grown c (d.append e)
  | close {c d k} (h : Grown c d) (hk : k.isGroup = true) : Grown c (d.close k c)
  | call {c d} (h : Grown c d) (hd : Nodes Called d.nodes) : Grown c (d.close .call c)
  | retag {c d f} (h : Grown c d) (hf : ∀ n ∈ d.nodes.head?, Retold n (f n)) :
      Grown c (d.retag f)
  | parentheses {c d} (h : Grown c d) : Grown c (d.asParenthesized c)

namespace Grown

variable {c : Cursor source} {d e : Draft source} {k : Kind}

theorem ite {p : Prop} [Decidable p] (h : Grown c d) (h' : Grown c e) :
    Grown c (if p then d else e) := by
  split
  · exact h
  · exact h'

theorem sign (h : Grown c d) (n : Nat) : Grown c (d.sign n) :=
  h.token rfl

theorem stray (h : Grown c d) : Grown c d.stray :=
  h.token rfl

theorem number (h : Grown c d) : Grown c d.number :=
  h.token rfl

theorem wordToken (h : Grown c d) (hk : k.isLayout = false) : Grown c (d.wordToken k) :=
  h.token hk

theorem expect (h : Grown c d) (s : String) : Grown c (d.expect s) := by
  unfold Draft.expect
  split
  · exact h.sign _
  · exact h.missing

/-- A token that is left out where it would be empty. -/
theorem some_token {n : Nat} (h : Grown c d) (hk : k.isLayout = false) :
    Grown c (if n = 0 then d else d.token k n) := by
  split
  · exact h
  · exact h.token hk

theorem tagName (h : Grown c d) : Grown c d.tagName :=
  h.some_token rfl

theorem escape {m : Nat} (h : Grown c d) :
    Grown c (if m = 0 then d.stray else d.token .escape m) := by
  split
  · exact h.stray
  · exact h.token rfl

theorem privateName {n : Nat} (h : Grown c d) :
    Grown c (if n = 0 then d.missing else d.token .privateName (n + 1)) := by
  split
  · exact h.missing
  · exact h.token rfl

theorem enclose {read : Draft source → Draft source} (h : Grown c d) (hk : k.isGroup = true)
    (hread : Grown d.cursor (read (Draft.fresh d.cursor))) : Grown c (d.enclose k read) :=
  h.append (hread.close hk)

theorem layout (h : Grown c d) (html : Bool) (fuel : Nat) : Grown c (d.layout html fuel) := by
  induction fuel generalizing d with
  | zero => exact h
  | succ fuel ih =>
    rw [layout_succ]
    split
    · rename_i k n hpassed
      obtain ⟨hk, hn, x, t, hrest, -⟩ := of_passed hpassed
      refine ih ((h.skip _).comment hk ?_)
      show List.take n (d.rest.drop (Lexeme.space d.rest)) ≠ []
      rw [hrest]
      simpa using hn
    · exact h.skip _

theorem space (h : Grown c d) : Grown c d.space :=
  h.layout true _

theorem gap (h : Grown c d) : Grown c d.gap :=
  h.layout false _

theorem propertyAfter (h : Grown c d) (n : Nat) : Grown c (d.propertyAfter n) := by
  have hsign : Grown c (if n = 0 then d else (d.sign n).gap) := by
    split
    · exact h
    · exact (h.sign n).gap
  unfold Draft.propertyAfter
  generalize (if n = 0 then d else (d.sign n).gap) = e at hsign ⊢
  simp only
  split
  · exact hsign.privateName
  · split
    · exact hsign.missing
    · exact hsign.wordToken rfl

theorem quotedTail (h : Grown c d) (quote : Char) (fuel : Nat) :
    Grown c (Draft.quotedTail quote fuel d) := by
  induction fuel generalizing d with
  | zero => exact h.missing
  | succ fuel ih =>
    have hfragment : Grown c (if Lexeme.fragment quote d.rest = 0 then d else
        d.token .fragment (Lexeme.fragment quote d.rest)) := h.some_token rfl
    rw [Draft.quotedTail]
    generalize (if Lexeme.fragment quote d.rest = 0 then d else
      d.token .fragment (Lexeme.fragment quote d.rest)) = e at hfragment ⊢
    split
    · exact ih hfragment.escape
    · split
      · exact hfragment.sign 1
      · split
        · exact (hfragment.token rfl).sign 1
        · exact hfragment.missing
    · exact hfragment.missing

theorem quoted (h : Grown c d) (quote : Char) : Grown c (d.quoted quote) :=
  h.enclose rfl (((Grown.fresh _).sign 1).quotedTail quote _)

theorem semicolon (h : Grown c d) : Grown c d.semicolon.2 := by
  unfold Draft.semicolon
  split
  · exact h.gap.sign 1
  · exact h

theorem sentence {read : Draft source → Draft source} (h : Grown c d) (hk : k.isGroup = true)
    (hread : Grown d.cursor (read (Draft.fresh d.cursor))) : Grown c (d.sentence k read) := by
  refine h.append (hread.semicolon.close ?_)
  split
  · exact hk
  · rfl

theorem toPattern (h : Grown c d) : Grown c (d.retag (·.toPattern)) :=
  h.retag fun n _ => .pattern n

theorem toParameters (h : Grown c d) (hd : ∀ n ∈ d.nodes.head?, n.kind ≠ .call) :
    Grown c (d.retag (·.toParameters)) :=
  h.retag fun n hn => .parameters n (hd n hn)

theorem toStatement (h : Grown c d) : Grown c (d.retag (·.toStatement)) :=
  h.retag fun n _ => .statement n

theorem shorthand {m : Mark source} {s : String} (h : Grown c d)
    (hd : d.nodes = [.leaf .propertyName m s]) :
    Grown c (d.retag fun _ => .leaf .shorthand m s) := by
  refine h.retag fun n hn => ?_
  rw [hd] at hn
  obtain rfl : Node.leaf .propertyName m s = n := Option.some.inj hn
  exact .shorthand m s

end Grown

/-! ### Calls -/

section Calls

variable {d e g : Draft source}

def Fillers (ns : List (Node source)) : Prop :=
  ∀ n ∈ ns, n.IsLeafOf Kind.isFiller

def OneOperands (ns : List (Node source)) : Prop :=
  ∃ n, ns = [n] ∧ n.kind.isOperands = true

theorem Fillers.append {ns ms : List (Node source)} (h : Fillers ns) (h' : Fillers ms) :
    Fillers (ms ++ ns) :=
  fun n hn => (List.mem_append.mp hn).elim (h' n) (h n)

theorem adds_gap_fillers (d : Draft source) : Adds Fillers d d.gap := by
  refine (adds_gap d).imp fun ns h n hn => ?_
  obtain ⟨k, m, s, rfl, hk⟩ := h n hn
  refine ⟨k, m, s, rfl, ?_⟩
  cases k <;> first | rfl | exact absurd hk Bool.false_ne_true

/-- The gap before the list of an optional call, with the sign in it. -/
theorem adds_optional (d : Draft source) : Adds Fillers d (d.gap.sign 2).gap := by
  have hsign : Adds Fillers d.gap (d.gap.sign 2) :=
    adds_token fun m s n hn => ⟨_, m, s, List.mem_singleton.mp hn, rfl⟩
  have htrans := (adds_gap_fillers d).trans hsign fun _ _ => Fillers.append
  exact htrans.trans (adds_gap_fillers _) fun _ _ => Fillers.append

theorem adds_arguments (fuel : Nat) (d : Draft source) : Adds OneOperands d (arguments fuel d) := by
  cases fuel with
  | zero => exact adds_missing d
  | succ fuel => exact ⟨[_], rfl, .inr ⟨_, rfl, rfl⟩⟩

theorem adds_template_operands (fuel : Nat) (d : Draft source) :
    Adds OneOperands d (template fuel d) := by
  cases fuel with
  | zero => exact adds_missing d
  | succ fuel => exact ⟨[_], rfl, .inr ⟨_, rfl, rfl⟩⟩

/-- A callee, what stands behind it, and what it is called with. -/
theorem nodes_called (he : Nodes One e.nodes) (hg : Adds Fillers e g) (hd : Adds OneOperands g d) :
    Nodes Called d.nodes := by
  obtain ⟨between, hbetween, hfillers⟩ := hg
  obtain ⟨added, hadded, hoperands⟩ := hd
  rw [hadded, hbetween]
  refine Nodes.append (P := fun ns => ∃ callee between, ns = between ++ [callee] ∧ Fillers between)
    (he.append hfillers ?_) hoperands ?_
  · rintro ⟨callee, hcallee, -⟩ hfillers
    exact ⟨callee, between, by rw [hcallee], hfillers⟩
  · rintro ⟨callee, between, heq, hfillers⟩ ⟨operands, rfl, hkind⟩
    exact ⟨callee, between, operands, by rw [heq]; rfl, hfillers, hkind⟩

end Calls

end Workyard.Script
