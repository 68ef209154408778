import Workyard.Proofs.Options.Parentheses
import Workyard.Proofs.Options.Strings
import Workyard.Proofs.Script.TwinReading

/-!
# Literals with returns before their line feeds

Where the line ends of a text stand does not matter for its value, but what they are made of does
where a line end stands for itself: in a template, and before the closing quote of a string.
-/

namespace Workyard.Options

set_option autoImplicit false

open Script Script.Node Script.Draft

variable {source source' : List Char}

/-! ### Feeds in a tree -/

/-- No escaped question mark takes a feed. -/
def Steady (n : Node source) : Prop :=
  (Kind.escape, "\\?\n") ∉ leaves n

instance (n : Node source) : Decidable (Steady n) :=
  inferInstanceAs (Decidable (_ ∉ _))

/-- No feed stands for itself, be it in a template or before the closing quote of a string. -/
def Unbroken (n : Node source) : Prop :=
  ∀ l ∈ leaves n, l.1 = .fragment → '\n' ∉ l.2.toList

instance (n : Node source) : Decidable (Unbroken n) :=
  inferInstanceAs (Decidable (∀ _ ∈ _, _))

theorem Steady.of_mem {k : Kind} {a b : Text.Mark source} {n : Node source} {ns : List (Node source)}
    (h : Steady (.branch k a b ns)) (hn : n ∈ ns) : Steady n :=
  fun hl => h (leaves_subset hn hl)

theorem Unbroken.of_mem {k : Kind} {a b : Text.Mark source} {n : Node source} {ns : List (Node source)}
    (h : Unbroken (.branch k a b ns)) (hn : n ∈ ns) : Unbroken n :=
  fun l hl => h l (leaves_subset hn hl)

theorem Steady.plain {k : Kind} {m : Text.Mark source} {s : String} (h : Steady (.leaf k m s))
    (hk : k.isPlain = true) : (Node.leaf k m s).Plain := by
  refine .leaf hk ?_
  rintro rfl hs
  have htext : s = "\\?\n" := String.toList_injective hs
  exact h (by rw [htext]; exact List.mem_singleton_self _)

theorem Steady.plain_of_isLeafOf {kinds : Kind → Bool} {n : Node source} (h : Steady n)
    (hkinds : ∀ k, kinds k = true → k.isPlain = true) (hn : n.IsLeafOf kinds) : n.Plain := by
  obtain ⟨k, m, s, rfl, hk⟩ := hn
  exact h.plain (hkinds k hk)

/-! ### What denotes something is plain -/

theorem plain_of_names {key : Node source} {k : String} (h : Names key k) (hsteady : Steady key) :
    key.Plain := by
  cases h with
  | name => exact hsteady.plain rfl
  | string h =>
    refine .branch rfl fun n hn => ?_
    exact (hsteady.of_mem hn).plain_of_isLeafOf isPlain_of_isQuotedPart (h n hn)
  | number => exact hsteady.plain rfl

mutual

theorem plain_of_denotes {n : Node source} {v : Json} (h : Denotes Kind.isLayout n v)
    (hsteady : Steady n) : n.Plain := by
  cases h with
  | trueWord => exact hsteady.plain rfl
  | falseWord => exact hsteady.plain rfl
  | nullWord => exact hsteady.plain rfl
  | number => exact hsteady.plain rfl
  | signed hsign hbetween h =>
    refine .branch rfl fun n hn => ?_
    have hn' := hsteady.of_mem hn
    rcases List.mem_append.mp hn with hn | hn
    · rcases List.mem_cons.mp hn with rfl | hn
      · exact hn'.plain rfl
      · exact hn'.plain_of_isLeafOf isPlain_of_isLayout (hbetween n hn)
    · obtain rfl := List.mem_singleton.mp hn
      exact hn'.plain rfl
  | @text k a b ns hk h =>
    have hplain : k.isPlain = true := by cases k <;> first | rfl | cases hk
    refine .branch hplain fun n hn => ?_
    exact (hsteady.of_mem hn).plain_of_isLeafOf isPlain_of_isQuotedPart (h n hn)
  | array h => exact .branch rfl (plain_of_items h fun n hn => hsteady.of_mem hn)
  | object h => exact .branch rfl (plain_of_pairs h fun n hn => hsteady.of_mem hn)
termination_by sizeOf n

theorem plain_of_items {awaiting : Bool} {ns : List (Node source)} {vs : List Json}
    (h : Items Kind.isLayout awaiting ns vs) (hsteady : ∀ n ∈ ns, Steady n) : ∀ n ∈ ns, n.Plain := by
  cases h with
  | nil => exact List.forall_mem_nil _
  | comment h =>
    rw [List.forall_mem_cons] at hsteady ⊢
    exact ⟨hsteady.1.plain rfl, plain_of_items h hsteady.2⟩
  | bracket _ h =>
    rw [List.forall_mem_cons] at hsteady ⊢
    exact ⟨hsteady.1.plain rfl, plain_of_items h hsteady.2⟩
  | comma h =>
    rw [List.forall_mem_cons] at hsteady ⊢
    exact ⟨hsteady.1.plain rfl, plain_of_items h hsteady.2⟩
  | item hn h =>
    rw [List.forall_mem_cons] at hsteady ⊢
    exact ⟨plain_of_denotes hn hsteady.1, plain_of_items h hsteady.2⟩
termination_by sizeOf ns

theorem plain_of_pairs {ns : List (Node source)} {es : List (String × Json)}
    (h : Pairs Kind.isLayout ns es) (hsteady : ∀ n ∈ ns, Steady n) : ∀ n ∈ ns, n.Plain := by
  cases h with
  | nil => exact List.forall_mem_nil _
  | comment h =>
    rw [List.forall_mem_cons] at hsteady ⊢
    exact ⟨hsteady.1.plain rfl, plain_of_pairs h hsteady.2⟩
  | punctuation h =>
    rw [List.forall_mem_cons] at hsteady ⊢
    exact ⟨hsteady.1.plain rfl, plain_of_pairs h hsteady.2⟩
  | pair hn h =>
    rw [List.forall_mem_cons] at hsteady ⊢
    exact ⟨plain_of_pair hn hsteady.1, plain_of_pairs h hsteady.2⟩
termination_by sizeOf ns

theorem plain_of_pair {n : Node source} {e : String × Json} (h : Pair Kind.isLayout n e) :
    Steady n → n.Plain := by
  cases h with
  | intro hkey hbefore hafter hvalue =>
    intro hsteady
    have hlast := plain_of_denotes hvalue
      (hsteady.of_mem (List.mem_append_right _ (List.mem_singleton_self _)))
    refine .branch rfl fun n hn => ?_
    have hn' := hsteady.of_mem hn
    rcases List.mem_append.mp hn with hn | hn
    · rcases List.mem_append.mp hn with hn | hn
      · rcases List.mem_cons.mp hn with rfl | hn
        · exact plain_of_names hkey hn'
        · exact hn'.plain_of_isLeafOf isPlain_of_isLayout (hbefore n hn)
      · rcases List.mem_cons.mp hn with rfl | hn
        · exact hn'.plain rfl
        · exact hn'.plain_of_isLeafOf isPlain_of_isLayout (hafter n hn)
    · rwa [List.mem_singleton.mp hn]
termination_by sizeOf n
decreasing_by exact sizeOf_last_lt _ _ _ _ _

end

/-! ### What twins denote -/

theorem Unbroken.leaf {m : Text.Mark source} {s : String} (h : Unbroken (.leaf .fragment m s)) :
    '\n' ∉ s.toList :=
  h (.fragment, s) (List.mem_singleton_self _) rfl

theorem exists_isLeafOf_of_twin {kinds : Kind → Bool} {n : Node source} {n' : Node source'}
    (h : Twin n n') (hn : n.IsLeafOf kinds) : n'.IsLeafOf kinds := by
  obtain ⟨k, m, s, rfl, hk⟩ := hn
  cases h with
  | same => exact ⟨_, _, _, rfl, hk⟩
  | layout => exact ⟨_, _, _, rfl, hk⟩
  | fragment => exact ⟨_, _, _, rfl, hk⟩
  | continuation => exact ⟨_, _, _, rfl, hk⟩

theorem forall_mem_of_forall₂ {α β : Type} {r : α → β → Prop} {p : α → Prop} {q : β → Prop}
    {xs : List α} {ys : List β} (h : List.Forall₂ r xs ys) (hxs : ∀ x ∈ xs, p x)
    (himp : ∀ {x y}, r x y → p x → q y) : ∀ y ∈ ys, q y := by
  induction h with
  | nil => exact List.forall_mem_nil _
  | cons hxy _ ih =>
    rw [List.forall_mem_cons] at hxs ⊢
    exact ⟨himp hxy hxs.1, ih hxs.2⟩

theorem isLeafOf_of_twins {kinds : Kind → Bool} {ns : List (Node source)} {ns' : List (Node source')}
    (h : List.Forall₂ Twin ns ns') (hns : ∀ n ∈ ns, n.IsLeafOf kinds) : ∀ n ∈ ns', n.IsLeafOf kinds :=
  forall_mem_of_forall₂ h hns exists_isLeafOf_of_twin

/-- Two parts of a quoted text that are twins stand for the same, but for feeds in them. -/
theorem piecesOf_of_twin {n : Node source} {n' : Node source'} (h : Twin n n')
    (hn : n.IsLeafOf Kind.isQuotedPart) (hunbroken : Unbroken n) : piecesOf [n'] = piecesOf [n] := by
  obtain ⟨k, m, s, rfl, hk⟩ := hn
  cases h with
  | same => rfl
  | layout hlayout => cases k <;> first | exact absurd hk Bool.false_ne_true | cases hlayout
  | fragment hs => exact absurd hs hunbroken.leaf
  | continuation => simp only [piecesOf, kind, text]; rfl

theorem piecesOf_of_twins {ns : List (Node source)} {ns' : List (Node source')}
    (h : List.Forall₂ Twin ns ns') (hns : ∀ n ∈ ns, n.IsLeafOf Kind.isQuotedPart)
    (hunbroken : ∀ n ∈ ns, Unbroken n) : piecesOf ns' = piecesOf ns := by
  induction h with
  | nil => rfl
  | @cons n n' ns ns' hn _ ih =>
    rw [List.forall_mem_cons] at hns hunbroken
    have hhead := piecesOf_of_twin hn hns.1 hunbroken.1
    rw [← List.singleton_append, ← List.singleton_append (l := ns), piecesOf_append, piecesOf_append,
      hhead, ih hns.2 hunbroken.2]

theorem forall₂_append_left {α β : Type} {r : α → β → Prop} {xs ys : List α} {zs : List β}
    (h : List.Forall₂ r (xs ++ ys) zs) :
    ∃ xs' ys', zs = xs' ++ ys' ∧ List.Forall₂ r xs xs' ∧ List.Forall₂ r ys ys' := by
  induction xs generalizing zs with
  | nil => exact ⟨[], zs, rfl, .nil, h⟩
  | cons x xs ih =>
    obtain ⟨y, zs, hxy, hrest, rfl⟩ := List.forall₂_cons_left_iff.mp h
    obtain ⟨xs', ys', rfl, hxs, hys⟩ := ih hrest
    exact ⟨y :: xs', ys', rfl, .cons hxy hxs, hys⟩

theorem forall₂_concat_left {α β : Type} {r : α → β → Prop} {xs : List α} {x : α} {zs : List β}
    (h : List.Forall₂ r (xs ++ [x]) zs) : ∃ ys y, zs = ys ++ [y] ∧ List.Forall₂ r xs ys ∧ r x y := by
  obtain ⟨ys, ys', rfl, hxs, hlast⟩ := forall₂_append_left h
  obtain ⟨y, _, hxy, hnil, rfl⟩ := List.forall₂_cons_left_iff.mp hlast
  rw [List.forall₂_nil_left_iff.mp hnil]
  exact ⟨ys, y, rfl, hxs, hxy⟩

theorem names_of_twin {key : Node source} {key' : Node source'} {k : String} (h : Names key k)
    (htwin : Twin key key') : ∃ k', Names key' k' ∧ (Unbroken key → k' = k) := by
  cases h with
  | name =>
    cases htwin with
    | same => exact ⟨_, .name, fun _ => rfl⟩
    | layout hk => cases hk
  | string h =>
    cases htwin with
    | branch hns =>
      refine ⟨_, .string (isLeafOf_of_twins hns h), fun hunbroken => ?_⟩
      rw [piecesOf_of_twins hns h fun n hn => hunbroken.of_mem hn]
  | number h =>
    cases htwin with
    | same => exact ⟨_, .number h, fun _ => rfl⟩
    | layout hk => cases hk

mutual

theorem denotes_of_twin {n : Node source} {n' : Node source'} {v : Json}
    (h : Denotes Kind.isLayout n v) (htwin : Twin n n') :
    ∃ v', Denotes Kind.isLayout n' v' ∧ (Unbroken n → v' = v) := by
  cases h with
  | trueWord =>
    cases htwin with
    | same => exact ⟨_, .trueWord, fun _ => rfl⟩
    | layout hk => cases hk
  | falseWord =>
    cases htwin with
    | same => exact ⟨_, .falseWord, fun _ => rfl⟩
    | layout hk => cases hk
  | nullWord =>
    cases htwin with
    | same => exact ⟨_, .nullWord, fun _ => rfl⟩
    | layout hk => cases hk
  | number h =>
    cases htwin with
    | same => exact ⟨_, .number h, fun _ => rfl⟩
    | layout hk => cases hk
  | signed hsign hbetween h =>
    cases htwin with
    | branch hns =>
      obtain ⟨ns, operand, rfl, hns, hoperand⟩ := forall₂_concat_left hns
      obtain ⟨sign, between, hsigns, hbetweens, rfl⟩ := List.forall₂_cons_left_iff.mp hns
      cases hsigns with
      | layout hk => cases hk
      | same =>
        cases hoperand with
        | layout hk => cases hk
        | same => exact ⟨_, .signed hsign (isLeafOf_of_twins hbetweens hbetween) h, fun _ => rfl⟩
  | text hk h =>
    cases htwin with
    | branch hns =>
      refine ⟨_, .text hk (isLeafOf_of_twins hns h), fun hunbroken => ?_⟩
      rw [piecesOf_of_twins hns h fun n hn => hunbroken.of_mem hn]
  | array h =>
    cases htwin with
    | branch hns =>
      obtain ⟨vs, hvs, heq⟩ := items_of_twins h hns
      exact ⟨_, .array hvs, fun hunbroken => by rw [heq fun n hn => hunbroken.of_mem hn]⟩
  | object h hms =>
    cases htwin with
    | branch hns =>
      obtain ⟨es, hes, heq⟩ := pairs_of_twins h hns
      refine ⟨_, .object hes (Json.Members.merged_ofList es), fun hunbroken => ?_⟩
      rw [heq fun n hn => hunbroken.of_mem hn, Json.Members.merged_iff.mp hms]
termination_by sizeOf n

theorem items_of_twins {awaiting : Bool} {ns : List (Node source)} {ns' : List (Node source')}
    {vs : List Json} (h : Items Kind.isLayout awaiting ns vs) (htwins : List.Forall₂ Twin ns ns') :
    ∃ vs', Items Kind.isLayout awaiting ns' vs' ∧ ((∀ n ∈ ns, Unbroken n) → vs' = vs) := by
  cases htwins with
  | nil =>
    cases h
    exact ⟨[], .nil, fun _ => rfl⟩
  | cons htwin htwins =>
    cases h with
    | comment h =>
      obtain ⟨vs, hvs, heq⟩ := items_of_twins h htwins
      cases htwin with
      | same => exact ⟨vs, .comment hvs, fun hunbroken => heq (List.forall_mem_of_forall_mem_cons hunbroken)⟩
      | layout => exact ⟨vs, .comment hvs, fun hunbroken => heq (List.forall_mem_of_forall_mem_cons hunbroken)⟩
    | bracket hs h =>
      obtain ⟨vs, hvs, heq⟩ := items_of_twins h htwins
      cases htwin with
      | same => exact ⟨vs, .bracket hs hvs, fun hunbroken => heq (List.forall_mem_of_forall_mem_cons hunbroken)⟩
      | layout hk => cases hk
    | comma h =>
      obtain ⟨vs, hvs, heq⟩ := items_of_twins h htwins
      cases htwin with
      | same => exact ⟨vs, .comma hvs, fun hunbroken => heq (List.forall_mem_of_forall_mem_cons hunbroken)⟩
      | layout hk => cases hk
    | item hn h =>
      obtain ⟨v, hv, heqv⟩ := denotes_of_twin hn htwin
      obtain ⟨vs, hvs, heq⟩ := items_of_twins h htwins
      refine ⟨v :: vs, .item hv hvs, fun hunbroken => ?_⟩
      rw [List.forall_mem_cons] at hunbroken
      rw [heqv hunbroken.1, heq hunbroken.2]
termination_by sizeOf ns

theorem pairs_of_twins {ns : List (Node source)} {ns' : List (Node source')}
    {es : List (String × Json)} (h : Pairs Kind.isLayout ns es) (htwins : List.Forall₂ Twin ns ns') :
    ∃ es', Pairs Kind.isLayout ns' es' ∧ ((∀ n ∈ ns, Unbroken n) → es' = es) := by
  cases htwins with
  | nil =>
    cases h
    exact ⟨[], .nil, fun _ => rfl⟩
  | cons htwin htwins =>
    cases h with
    | comment h =>
      obtain ⟨es, hes, heq⟩ := pairs_of_twins h htwins
      cases htwin with
      | same => exact ⟨es, .comment hes, fun hunbroken => heq (List.forall_mem_of_forall_mem_cons hunbroken)⟩
      | layout => exact ⟨es, .comment hes, fun hunbroken => heq (List.forall_mem_of_forall_mem_cons hunbroken)⟩
    | punctuation h =>
      obtain ⟨es, hes, heq⟩ := pairs_of_twins h htwins
      cases htwin with
      | same => exact ⟨es, .punctuation hes, fun hunbroken => heq (List.forall_mem_of_forall_mem_cons hunbroken)⟩
      | layout hk => cases hk
    | pair hn h =>
      obtain ⟨e, he, heqe⟩ := pair_of_twin hn htwin
      obtain ⟨es, hes, heq⟩ := pairs_of_twins h htwins
      refine ⟨e :: es, .pair he hes, fun hunbroken => ?_⟩
      rw [List.forall_mem_cons] at hunbroken
      rw [heqe hunbroken.1, heq hunbroken.2]
termination_by sizeOf ns

theorem pair_of_twin {n : Node source} {e : String × Json} (h : Pair Kind.isLayout n e) :
    ∀ {n' : Node source'}, Twin n n' → ∃ e', Pair Kind.isLayout n' e' ∧ (Unbroken n → e' = e) := by
  cases h with
  | intro hkey hbefore hafter hvalue =>
    intro n' htwin
    cases htwin with
    | branch hns =>
      obtain ⟨ns, value', rfl, hns, hvalues⟩ := forall₂_concat_left hns
      obtain ⟨v, hv, heqv⟩ := denotes_of_twin hvalue hvalues
      obtain ⟨ns, ms, rfl, hkeys, hsigns⟩ := forall₂_append_left hns
      obtain ⟨key', before', hkey', hbefores, rfl⟩ := List.forall₂_cons_left_iff.mp hkeys
      obtain ⟨sign, after', hsign, hafters, rfl⟩ := List.forall₂_cons_left_iff.mp hsigns
      obtain ⟨k, hk, heqk⟩ := names_of_twin hkey hkey'
      cases hsign with
      | layout hlayout => cases hlayout
      | same =>
        refine ⟨(k, v), .intro hk (isLeafOf_of_twins hbefores hbefore)
          (isLeafOf_of_twins hafters hafter) hv, fun hunbroken => ?_⟩
        have hfirst := hunbroken.of_mem (List.mem_append_left _ List.mem_cons_self)
        have hlast := hunbroken.of_mem (List.mem_append_right _ (List.mem_singleton_self _))
        rw [heqk hfirst, heqv hlast]
termination_by sizeOf n
decreasing_by exact sizeOf_last_lt _ _ _ _ _

end

/-! ### Parentheses around a twin -/

theorem Sole.clean {e : Draft source} {m : Node source} (h : Sole e m)
    (hshaped : ∀ n ∈ e.nodes, n.Shaped) (hm : m.Plain) : Clean e.nodes := by
  intro n hn
  by_cases hitem : Options.isItem n = true
  · have hmem := List.mem_filter.mpr ⟨List.mem_reverse.mpr hn, hitem⟩
    rw [h.items, List.mem_singleton] at hmem
    rwa [hmem]
  · cases hshaped n hn with
    | @leaf k m s hfault =>
      refine .leaf ?_ ?_
      · cases k <;> first | rfl | exact absurd rfl hitem | cases hfault
      · rintro rfl
        exact absurd rfl hitem
    | @hidden k _ _ _ hk => cases k <;> first | exact absurd hk Bool.false_ne_true | exact absurd rfl hitem
    | @listing k _ _ _ hk => cases k <;> first | exact absurd hk Bool.false_ne_true | exact absurd rfl hitem
    | @quoted k _ _ _ hk => cases k <;> first | exact absurd hk Bool.false_ne_true | exact absurd rfl hitem
    | pair => exact absurd rfl hitem
    | unary => exact absurd rfl hitem

/-- The entries of the other text are around the twin of the value. -/
theorem exists_sole_of_keeps {e : Draft source} {e' : Draft source'} {m : Node source} (h : Sole e m)
    (hkeeps : Keeps e e') : ∃ m', Twin m m' ∧ Sole e' m' := by
  have hnodes := List.rel_reverse hkeeps.nodes
  have hkind (p : Kind → Bool) : List.Forall₂ Twin (e.nodes.reverse.filter fun n => p n.kind)
      (e'.nodes.reverse.filter fun n => p n.kind) := by
    refine List.rel_filter ?_ hnodes
    intro n n' htwin
    show p n.kind = true ↔ p n'.kind = true
    rw [htwin.kind_eq]
  have hitems := hkind fun k => k.isSignificant && k != .htmlComment
  change List.Forall₂ Twin (e.nodes.reverse.filter isItem) (e'.nodes.reverse.filter isItem) at hitems
  rw [h.items] at hitems
  obtain ⟨m', _, hm, hnil, hitems'⟩ := List.forall₂_cons_left_iff.mp hitems
  rw [List.forall₂_nil_left_iff.mp hnil] at hitems'
  refine ⟨m', hm, ?_, ?_, hitems', ?_, ?_, ?_⟩
  · have hrest := hkeeps.rest
    rw [h.rest] at hrest
    exact hrest.eq_nil
  · rw [anyFault_of_twins hkeeps.nodes]
    exact h.sound
  · have hfirst := hkind Kind.isSignificant
    obtain ⟨ns, hns⟩ := List.head?_eq_some_iff.mp h.first
    rw [hns] at hfirst
    obtain ⟨x, ns', hx, _, hns'⟩ := List.forall₂_cons_left_iff.mp hfirst
    -- The first node that is looked at is the item, since its twin is.
    have hmem : x ∈ e'.nodes.reverse.filter fun n => n.kind.isSignificant := by
      rw [hns']
      exact List.mem_cons_self
    have hitem : isItem x = true := by
      have hm := h.isItem
      unfold isItem at hm ⊢
      rwa [hx.kind_eq]
    have hsame := List.mem_filter.mpr ⟨(List.mem_filter.mp hmem).1, hitem⟩
    rw [hitems', List.mem_singleton] at hsame
    rw [hns', hsame]
    rfl
  · rw [hm.kind_eq]
    exact h.spread
  · exact forall_mem_of_forall₂ hkeeps.nodes h.comma Twin.comma

/-! ### Texts -/

theorem enclosedValue_of_returns {cs : List Char} {v : Json} (hsource : source = '(' :: cs)
    (hreturns : Returns source source') (h : enclosedValue (parse source) = .ok v)
    (hsteady : Steady (parse source)) :
    ∃ v', enclosedValue (parse source') = .ok v' ∧ (Unbroken (parse source) → v' = v) := by
  obtain ⟨m, hvalue, hleaves, hsole⟩ := exists_sole_of_enclosedValue hsource h
  have hshaped := shaped_bracketed hsole.sound
  have hmem := (List.mem_filter.mp (List.mem_of_mem_head? hsole.first)).1
  have hdenotes := (faithful_of_shaped (hshaped m (List.mem_reverse.mp hmem))).value hvalue
  have hclean := hsole.clean hshaped (plain_of_denotes hdenotes fun hl => hsteady (hleaves hl))
  obtain ⟨cs', hsource', -⟩ : ∃ cs', source' = '(' :: cs' ∧ Returns cs cs' := by
    rw [hsource] at hreturns
    exact (hreturns.cons (by decide)).2
  have hfront : (front source).rest = source := (rest_front hsource).trans hsource.symm
  have hfuel : 16 * source.length + 56 ≤ 16 * source'.length + 56 := by
    have hlength := hreturns.length_le
    omega
  obtain ⟨m', htwin, hvalue'⟩ := enclosedValue_of_sole (P := Twin m) hsource' fun d' hd' => by
    have hkeeps : Keeps (fresh (front source).cursor) (fresh d'.cursor) := by
      refine ⟨.nil, ?_⟩
      show Returns (front source).rest d'.rest
      rwa [hfront, hd']
    have hentries := (echoes source source' _).entries .values hfuel
      (hkeeps.sign (rest_front hsource) (by decide)) hclean
    exact exists_sole_of_keeps hsole hentries
  obtain ⟨v', hdenotes', heq⟩ := denotes_of_twin hdenotes htwin
  refine ⟨v', hvalue'.trans (valueOf_of_denotes hdenotes'), fun hunbroken => heq fun l hl => ?_⟩
  exact hunbroken l (hleaves hl)

theorem mapError_eq_ok_iff {r : Read Json} {f : OptionError → OptionError} {v : Json} :
    r.mapError f = .ok v ↔ r = .ok v := by
  cases r <;> simp [Except.mapError]

/-- A value is read as well with returns before some of the feeds. -/
theorem parseLiteral_of_returns {text text' : String} {v : Json}
    (htext : Text.WithReturns text.toList text'.toList) (hreturn : '\r' ∉ text.toList)
    (h : parseLiteral text = .ok v) (hsteady : Steady (parse (enclosed text))) :
    ∃ v', parseLiteral text' = .ok v' ∧ (Unbroken (parse (enclosed text)) → v' = v) := by
  have hopen : enclosed text = '(' :: (text.toList ++ ['\n', ')']) := rfl
  have hsource : Returns (enclosed text) (enclosed text') := by
    have hend : Returns ['\n', ')'] ['\n', ')'] := .refl (by decide)
    exact .keep (by decide) ((returns_of_withReturns htext hreturn).append hend)
  obtain ⟨v', hv', heq⟩ :=
    enclosedValue_of_returns hopen hsource (mapError_eq_ok_iff.mp h) hsteady
  exact ⟨v', mapError_eq_ok_iff.mpr hv', heq⟩

/-- The text with a return before each of its feeds. -/
def withReturns (text : String) : String :=
  String.ofList (text.toList.flatMap fun c => if c = '\n' then ['\r', '\n'] else [c])

theorem withReturns_flatMap (cs : List Char) :
    Text.WithReturns cs (cs.flatMap fun c => if c = '\n' then ['\r', '\n'] else [c]) := by
  induction cs with
  | nil => exact .nil
  | cons c cs ih =>
    rw [List.flatMap_cons]
    split
    · subst c
      exact .pair ih
    · exact .keep c ih

/-- A value is read from the text with returns as well, unless an escaped question mark takes a feed,
and it is the same value if no feed stands for itself. -/
theorem parseLiteral_withReturns {text : String} {v : Json} (hreturn : '\r' ∉ text.toList)
    (h : parseLiteral text = .ok v) (hsteady : Steady (parse (enclosed text))) :
    (∃ v', parseLiteral (withReturns text) = .ok v') ∧
      (Unbroken (parse (enclosed text)) → parseLiteral (withReturns text) = .ok v) := by
  have htext : Text.WithReturns text.toList (withReturns text).toList := by
    rw [withReturns, String.toList_ofList]
    exact withReturns_flatMap _
  obtain ⟨v', hv', heq⟩ := parseLiteral_of_returns htext hreturn h hsteady
  refine ⟨⟨v', hv'⟩, fun hunbroken => ?_⟩
  rw [hv', heq hunbroken]

/-- Feeds between tokens, at the end of a comment and within one, and behind a backslash. -/
def spread : String :=
  "\x7b // one\n a: 'b\\\nc', /* two\n */ 'd': [true,\n\n-1] \x7d"

set_option maxRecDepth 100000 in
theorem parseLiteral_withReturns_spread : '\r' ∉ spread.toList ∧ Steady (parse (enclosed spread)) ∧
    Unbroken (parse (enclosed spread)) ∧ parseLiteral (withReturns spread) = .ok (.object
      [("a", .string "bc"), ("d", .array [.bool true, .number (.integer (-1) (by decide))])]) := by
  have hreturn : '\r' ∉ spread.toList := by decide
  have hsteady : Steady (parse (enclosed spread)) := by decide +kernel
  have hunbroken : Unbroken (parse (enclosed spread)) := by decide +kernel
  exact ⟨hreturn, hsteady, hunbroken, (parseLiteral_withReturns hreturn rfl hsteady).2 hunbroken⟩

/-! ### Templates -/

/-- What stands between the quotes of a template is its value, if nothing of it is an escape or a
substitution. Line ends stay what they are. -/
theorem parseLiteral_template (run : List Char) (hrun : ∀ c ∈ run, c ∉ ['\x60', '\\'])
    (hchain : run.IsChain fun c d => ¬ (c = '$' ∧ d = '\x7b')) :
    parseLiteral (String.ofList ('\x60' :: (run ++ ['\x60']))) = .ok (.string (String.ofList run)) := by
  refine parseLiteral_of_read (q := .backtick) (k := 1) ?_ fun {source} d rest fuel hfuel hd => ?_
  · rw [List.length_append]
    exact Nat.le_add_left _ _
  · have hopen : d.rest = Quote.backtick.char :: (run ++ '\x60' :: rest) := by
      rw [hd]
      simp
    obtain ⟨a, b, m, s, ns, hns, hleads⟩ := leads_read_of_tail (n := 0)
      (P := fun ns => Stands ns (run.flatMap (fun c => pointUnits c.toNat) ++ [])) hfuel
      (Nat.zero_le _) hopen fun k d' hk hd' => by
        obtain ⟨k, rfl⟩ : ∃ j, k = j + 1 := ⟨k - 1, by omega⟩
        have hlength : Quote.backtick.fragment d'.rest = run.length := by
          rw [hd']
          exact templateFragment_append hrun hchain (.inl rfl)
        obtain ⟨ns, hns, hpast⟩ := leads_past hd'
        have hclose : (past (Quote.backtick.fragment d'.rest) d').rest = Quote.backtick.char :: rest := by
          rw [hlength]
          exact hpast.rest_eq
        rw [tail_close hclose, hlength]
        exact ⟨_, hns.append (stands_sign _ _), hpast.trans (leads_sign hpast.rest_eq)⟩
    have hstands := (stands_sign m s).append hns
    have hchars : decode (run.flatMap (fun c => pointUnits c.toNat) ++ []) = run := by
      rw [decode_chars]
      exact List.append_nil run
    refine ⟨a, b, _, ⟨hstands.leaves, ?_⟩, hleads⟩
    rw [hstands.value, List.nil_append, hchars]

/-- The return before a feed is a part of the value. -/
theorem template_keeps_returns : '\r' ∉ "\x60a\nb\x60".toList ∧
    parseLiteral "\x60a\nb\x60" = .ok (.string "a\nb") ∧
    parseLiteral (withReturns "\x60a\nb\x60") = .ok (.string "a\r\nb") ∧ "a\r\nb" ≠ "a\nb" := by
  refine ⟨by decide, ?_, ?_, by decide⟩
  · exact parseLiteral_template ['a', '\n', 'b'] (by decide) (by decide)
  · exact parseLiteral_template ['a', '\r', '\n', 'b'] (by decide) (by decide)

end Workyard.Options
