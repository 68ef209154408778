import Workyard.Script.Grammar

/-!
# The shape of syntax trees

Which nodes stand below a node that is looked at for a value, and in which order. Reading adds
nodes to a draft: either one of them has a fault, or they are as they should be.
-/

namespace Workyard.Script

set_option autoImplicit false

variable {source : List Char}

/-- Branches of which nothing is looked at. -/
def Kind.isOpaque : Kind → Bool
  | .method | .computedKey | .spread | .substitution | .update | .binary | .ternary | .assignment
  | .sequence | .member | .call | .arguments | .construction | .function | .markup | .classBody
  | .other | .parameters | .statement => true
  | _ => false

/-- Branches whose children may stand in any order. -/
def Kind.isListing : Kind → Bool
  | .object | .array | .parenthesized | .expressionStatement | .program => true
  | _ => false

def Kind.isQuoted : Kind → Bool
  | .string | .template => true
  | _ => false

/-- What stands inside a quoted text, beside substitutions. -/
def Kind.isQuotedPart : Kind → Bool
  | .punctuation | .fragment | .escape => true
  | _ => false

def Kind.isLayout : Kind → Bool
  | .comment | .htmlComment => true
  | _ => false

namespace Node

/-- A leaf of one of the kinds. -/
def IsLeafOf (kinds : Kind → Bool) (n : Node source) : Prop :=
  ∃ k m s, n = .leaf k m s ∧ kinds k = true

def IsSubstitution (n : Node source) : Prop :=
  ∃ a b ns, n = .branch .substitution a b ns

inductive Shaped : Node source → Prop
  | leaf {k m s} (hfault : k.isFault = false) (hquoted : k.isQuoted = false) : Shaped (.leaf k m s)
  | hidden {k a b ns} (hk : k.isOpaque = true) : Shaped (.branch k a b ns)
  | listing {k a b ns} (hk : k.isListing = true) (h : ∀ n ∈ ns, Shaped n) : Shaped (.branch k a b ns)
  | quoted {k a b ns} (hk : k.isQuoted = true)
      (h : ∀ n ∈ ns, n.IsLeafOf Kind.isQuotedPart ∨ n.IsSubstitution) : Shaped (.branch k a b ns)
  | pair {a b m key value} {before after : List (Node source)} (hkey : Shaped key)
      (hbefore : ∀ n ∈ before, n.IsLeafOf Kind.isLayout)
      (hafter : ∀ n ∈ after, n.IsLeafOf Kind.isLayout) (hvalue : Shaped value) :
      Shaped (.branch .pair a b (key :: before ++ .leaf .punctuation m ":" :: after ++ [value]))
  /-- A signed operand stands where its sign does. -/
  | unary {a b s operand} {between : List (Node source)}
      (hbetween : ∀ n ∈ between, n.IsLeafOf Kind.isLayout) (hoperand : Shaped operand) :
      Shaped (.branch .unary a b (.leaf .punctuation a s :: between ++ [operand]))

theorem anyFault_append (ns ms : List (Node source)) :
    anyFault (ns ++ ms) = (anyFault ns || anyFault ms) := by
  induction ns with
  | nil => rfl
  | cons n ns ih => simp [anyFault, ih, Bool.or_assoc]

theorem anyFault_eq_true_iff {ns : List (Node source)} :
    anyFault ns = true ↔ ∃ n ∈ ns, n.hasFault = true := by
  induction ns with
  | nil => simp [anyFault]
  | cons n ns ih => simp [anyFault, ih]

theorem anyFault_reverse (ns : List (Node source)) : anyFault ns.reverse = anyFault ns := by
  rw [Bool.eq_iff_iff, anyFault_eq_true_iff, anyFault_eq_true_iff]
  simp

theorem hasFault_of_anyFault {k : Kind} {a b : Text.Mark source} {ns : List (Node source)}
    (h : anyFault ns = true) : (branch k a b ns).hasFault = true := by
  simp [hasFault, h]

end Node

open Node

/-! ### What reading adds -/

/-- The first text of nodes has a fault or is as `P` says. The latest node is the first. -/
def Nodes (P : List (Node source) → Prop) (ns : List (Node source)) : Prop :=
  anyFault ns = true ∨ P ns

def One (ns : List (Node source)) : Prop :=
  ∃ n, ns = [n] ∧ n.Shaped

def All (ns : List (Node source)) : Prop :=
  ∀ n ∈ ns, n.Shaped

def Layout (ns : List (Node source)) : Prop :=
  ∀ n ∈ ns, n.IsLeafOf Kind.isLayout

def Quoted (ns : List (Node source)) : Prop :=
  ∀ n ∈ ns, n.IsLeafOf Kind.isQuotedPart ∨ n.IsSubstitution

/-- The second draft goes on from the first one with such nodes. -/
def Adds (P : List (Node source) → Prop) (d e : Draft source) : Prop :=
  ∃ added, e.nodes = added ++ d.nodes ∧ Nodes P added

section Nodes

variable {P Q R : List (Node source) → Prop} {ns ms : List (Node source)}

theorem Nodes.imp (h : Nodes P ns) (himp : P ns → Q ns) : Nodes Q ns :=
  h.imp_right himp

theorem Nodes.append (h : Nodes P ns) (h' : Nodes Q ms) (hR : P ns → Q ms → R (ms ++ ns)) :
    Nodes R (ms ++ ns) := by
  unfold Nodes
  rw [anyFault_append]
  rcases h with h | h
  · simp [h]
  · rcases h' with h' | h'
    · simp [h']
    · exact .inr (hR h h')

theorem One.all (h : One ns) : All ns := by
  obtain ⟨n, rfl, hn⟩ := h
  intro m hm
  rw [List.mem_singleton.mp hm]
  exact hn

theorem Layout.all (h : Layout ns) : All ns := by
  intro n hn
  obtain ⟨k, m, s, rfl, hk⟩ := h n hn
  cases k <;> first | exact .leaf rfl rfl | exact absurd hk Bool.false_ne_true

theorem All.append (h : All ns) (h' : All ms) : All (ms ++ ns) :=
  fun n hn => (List.mem_append.mp hn).elim (h' n) (h n)

theorem Layout.append (h : Layout ns) (h' : Layout ms) : Layout (ms ++ ns) :=
  fun n hn => (List.mem_append.mp hn).elim (h' n) (h n)

theorem Quoted.append (h : Quoted ns) (h' : Quoted ms) : Quoted (ms ++ ns) :=
  fun n hn => (List.mem_append.mp hn).elim (h' n) (h n)

end Nodes

section Adds

variable {P Q R : List (Node source) → Prop} {d e f : Draft source}

theorem Adds.imp (h : Adds P d e) (himp : ∀ ns, P ns → Q ns) : Adds Q d e := by
  obtain ⟨added, hadded, h⟩ := h
  exact ⟨added, hadded, h.imp (himp added)⟩

theorem Adds.trans (h : Adds P d e) (h' : Adds Q e f)
    (hR : ∀ ns ms, P ns → Q ms → R (ms ++ ns)) : Adds R d f := by
  obtain ⟨ns, hns, h⟩ := h
  obtain ⟨ms, hms, h'⟩ := h'
  exact ⟨ms ++ ns, by rw [hms, hns, List.append_assoc], h.append h' (hR ns ms)⟩

theorem Adds.all (h : Adds One d e) : Adds All d e :=
  h.imp fun _ => One.all

theorem Adds.append_all (h : Adds All d e) (h' : Adds All e f) : Adds All d f :=
  h.trans h' fun _ _ => All.append

theorem Adds.append_quoted (h : Adds Quoted d e) (h' : Adds Quoted e f) : Adds Quoted d f :=
  h.trans h' fun _ _ => Quoted.append

/-- A fault makes up for whatever is added after it. -/
theorem Adds.of_fault (h : Adds (fun _ => False) d e) (h' : Adds Q e f) : Adds R d f :=
  h.trans h' fun _ _ hfalse => hfalse.elim

theorem adds_self {d : Draft source} (h : P []) : Adds P d d :=
  ⟨[], rfl, .inr h⟩

theorem adds_missing (d : Draft source) : Adds P d d.missing :=
  ⟨[_], rfl, .inl rfl⟩

theorem adds_stray (d : Draft source) : Adds P d d.stray :=
  ⟨[_], rfl, .inl rfl⟩

theorem adds_token {kind : Kind} {n : Nat} {d : Draft source}
    (h : ∀ m s, P [.leaf kind m s]) : Adds P d (d.token kind n) :=
  ⟨[_], rfl, .inr (h _ _)⟩

theorem adds_one_token {kind : Kind} (hfault : kind.isFault = false)
    (hquoted : kind.isQuoted = false) (n : Nat) (d : Draft source) : Adds One d (d.token kind n) :=
  adds_token fun _ _ => ⟨_, rfl, .leaf hfault hquoted⟩

theorem adds_sign (n : Nat) (d : Draft source) : Adds All d (d.sign n) :=
  (adds_one_token rfl rfl n d).all

theorem nodes_close {kind : Kind} {start : Text.Cursor source} {e : Draft source}
    (h : anyFault e.nodes = true ∨
      (Node.branch kind start.mark e.cursor.mark e.nodes.reverse).Shaped) :
    Nodes One (e.close kind start).nodes := by
  rcases h with h | h
  · rw [← anyFault_reverse] at h
    left
    simp [Draft.close, anyFault, hasFault_of_anyFault h]
  · exact .inr ⟨_, rfl, h⟩

theorem Adds.of_nodes (h : Nodes P e.nodes) (d : Draft source) : Adds P d (d.append e) :=
  ⟨e.nodes, rfl, h⟩

/-- A node of which nothing is looked at. -/
theorem adds_hidden {kind : Kind} (hk : kind.isOpaque = true) (start : Text.Cursor source)
    (d e : Draft source) : Adds One d (d.append (e.close kind start)) :=
  .of_nodes (nodes_close (.inr (.hidden hk))) d

theorem adds_error (start : Text.Cursor source) (d e : Draft source) :
    Adds P d (d.append (e.close .error start)) :=
  ⟨[_], rfl, .inl rfl⟩

theorem adds_listing {kind : Kind} (hk : kind.isListing = true) {start : Text.Cursor source}
    {d e : Draft source} (h : Nodes All e.nodes) : Adds One d (d.append (e.close kind start)) := by
  refine .of_nodes (nodes_close (h.imp_right fun h => .listing hk fun n hn => ?_)) d
  exact h n (List.mem_reverse.mp hn)

theorem adds_quoted {kind : Kind} (hk : kind.isQuoted = true) {start : Text.Cursor source}
    {d e : Draft source} (h : Nodes Quoted e.nodes) :
    Adds One d (d.append (e.close kind start)) := by
  refine .of_nodes (nodes_close (h.imp_right fun h => .quoted hk fun n hn => ?_)) d
  exact h n (List.mem_reverse.mp hn)

theorem adds_enclose_hidden {kind : Kind} (hk : kind.isOpaque = true)
    (read : Draft source → Draft source) (d : Draft source) : Adds One d (d.enclose kind read) :=
  adds_hidden hk d.cursor d _

theorem nodes_close_hidden {kind : Kind} (hk : kind.isOpaque = true) (start : Text.Cursor source)
    (e : Draft source) : Nodes One (e.close kind start).nodes :=
  .inr ⟨_, rfl, .hidden hk⟩

theorem nodes_missing (e : Draft source) : Nodes P e.missing.nodes :=
  .inl rfl

/-- The nodes of a draft that began with none. -/
theorem Adds.nodes {c : Text.Cursor source} (h : Adds P (.fresh c) e) : Nodes P e.nodes := by
  obtain ⟨added, hadded, h⟩ := h
  rw [hadded]
  simpa [Draft.fresh] using h

end Adds

/-! ### White space and comments -/

theorem adds_layout (html : Bool) (fuel : Nat) (d : Draft source) :
    Adds Layout d (d.layout html fuel) := by
  induction fuel generalizing d with
  | zero => exact adds_self fun _ h => absurd h List.not_mem_nil
  | succ fuel ih =>
    have hspace : Adds Layout d ⟨d.nodes, d.cursor.skip (Lexeme.space d.rest)⟩ :=
      ⟨[], rfl, .inr fun _ h => absurd h List.not_mem_nil⟩
    have hcomment : ∀ {k : Kind} (n : Nat) (e : Draft source), k.isLayout = true →
        Adds Layout d e → Adds Layout d (Draft.layout html fuel (e.token k n)) := by
      intro k n e hk he
      have htoken : Adds Layout e (e.token k n) :=
        adds_token fun m s x hx => ⟨k, m, s, List.mem_singleton.mp hx, hk⟩
      exact (he.trans htoken fun _ _ => Layout.append).trans (ih _) fun _ _ => Layout.append
    rw [Draft.layout]
    generalize (if html = true then Lexeme.htmlComment _ else 0) = m
    split
    · exact hcomment _ _ rfl hspace
    · split
      · exact hcomment _ _ rfl hspace
      · exact hspace

theorem adds_space (d : Draft source) : Adds Layout d d.space :=
  adds_layout true _ d

theorem adds_gap (d : Draft source) : Adds Layout d d.gap :=
  adds_layout false _ d

theorem adds_space_all (d : Draft source) : Adds All d d.space :=
  (adds_space d).imp fun _ => Layout.all

theorem adds_gap_all (d : Draft source) : Adds All d d.gap :=
  (adds_gap d).imp fun _ => Layout.all

end Workyard.Script
