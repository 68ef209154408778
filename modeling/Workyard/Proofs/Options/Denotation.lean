import Workyard.Options.Literal
import Workyard.Proofs.Json.Members
import Workyard.Proofs.Script.Shape

/-!
# What a literal denotes

Which trees are literals, and the values they denote: a relation with one rule for each kind of
node. The walk over a tree finds exactly the denotation.
-/

namespace Workyard.Options

set_option autoImplicit false

open Script Script.Node

variable {source : List Char}

/-- The names that keys stand for. -/
inductive Names : Node source → String → Prop
  | name {m s} : Names (.leaf .propertyName m s) s
  | string {a b ns} (h : ∀ n ∈ ns, n.IsLeafOf Kind.isQuotedPart) :
      Names (.branch .string a b ns) (cook (piecesOf ns))
  | number {m s x} (h : number? false s = some x) : Names (.leaf .number m s) (numericKey x)

mutual

/-- The values that trees denote. Beside the parts of a pair and of a signed number there may
be nodes of the kinds that are passed over. -/
inductive Denotes (passed : Kind → Bool) : Node source → Json → Prop
  | trueWord {m s} : Denotes passed (.leaf .trueWord m s) (.bool true)
  | falseWord {m s} : Denotes passed (.leaf .falseWord m s) (.bool false)
  | nullWord {m s} : Denotes passed (.leaf .nullWord m s) .null
  | number {m s x} (h : number? false s = some x) : Denotes passed (.leaf .number m s) (.number x)
  | signed {a b m m' sign s x} {between : List (Node source)} (hsign : sign = "-" ∨ sign = "+")
      (hbetween : ∀ n ∈ between, n.IsLeafOf passed) (h : number? (sign = "-") s = some x) :
      Denotes passed
        (.branch .unary a b (.leaf .punctuation m sign :: between ++ [.leaf .number m' s]))
        (.number x)
  | text {k a b ns} (hk : k.isQuoted = true) (h : ∀ n ∈ ns, n.IsLeafOf Kind.isQuotedPart) :
      Denotes passed (.branch k a b ns) (.string (cook (piecesOf ns)))
  | array {a b ns vs} (h : Items passed true ns vs) : Denotes passed (.branch .array a b ns) (.array vs)
  | object {a b ns es ms} (h : Pairs passed ns es) (hms : Json.Members.Merged es ms) :
      Denotes passed (.branch .object a b ns) (.object ms)

/-- The items of an array. A comma comes after an item. -/
inductive Items (passed : Kind → Bool) : Bool → List (Node source) → List Json → Prop
  | nil {awaiting} : Items passed awaiting [] []
  | comment {awaiting m s ns vs} (h : Items passed awaiting ns vs) :
      Items passed awaiting (.leaf .comment m s :: ns) vs
  | bracket {awaiting m s ns vs} (hs : s ≠ ",") (h : Items passed awaiting ns vs) :
      Items passed awaiting (.leaf .punctuation m s :: ns) vs
  | comma {m ns vs} (h : Items passed true ns vs) :
      Items passed false (.leaf .punctuation m "," :: ns) vs
  | item {awaiting n ns v vs} (hn : Denotes passed n v) (h : Items passed false ns vs) :
      Items passed awaiting (n :: ns) (v :: vs)

/-- The pairs of an object. -/
inductive Pairs (passed : Kind → Bool) : List (Node source) → List (String × Json) → Prop
  | nil : Pairs passed [] []
  | comment {m s ns es} (h : Pairs passed ns es) : Pairs passed (.leaf .comment m s :: ns) es
  | punctuation {m s ns es} (h : Pairs passed ns es) :
      Pairs passed (.leaf .punctuation m s :: ns) es
  | pair {n e ns es} (hn : Pair passed n e) (h : Pairs passed ns es) :
      Pairs passed (n :: ns) (e :: es)

inductive Pair (passed : Kind → Bool) : Node source → String × Json → Prop
  | intro {a b m key value k v} {before after : List (Node source)} (hkey : Names key k)
      (hbefore : ∀ n ∈ before, n.IsLeafOf passed) (hafter : ∀ n ∈ after, n.IsLeafOf passed)
      (hvalue : Denotes passed value v) :
      Pair passed (.branch .pair a b
        (key :: before ++ .leaf .punctuation m ":" :: after ++ [value])) (k, v)

end

/-! ### Keys and texts -/

theorem stringOf_of_leaves {k : Kind} {a b : Text.Mark source} {ns : List (Node source)}
    (h : ∀ n ∈ ns, n.IsLeafOf Kind.isQuotedPart) :
    stringOf (.branch k a b ns) = .ok (cook (piecesOf ns)) := by
  have hnone : ns.find? (·.kind = .substitution) = none := by
    rw [List.find?_eq_none]
    intro n hn
    obtain ⟨k, m, s, rfl, hk⟩ := h n hn
    cases k <;> simp_all [Kind.isQuotedPart, kind]
  simp [stringOf, children, hnone]

theorem leaves_of_stringOf {k : Kind} {a b : Text.Mark source} {ns : List (Node source)}
    {s : String} (hns : ∀ n ∈ ns, n.IsLeafOf Kind.isQuotedPart ∨ n.IsSubstitution)
    (h : stringOf (.branch k a b ns) = .ok s) :
    (∀ n ∈ ns, n.IsLeafOf Kind.isQuotedPart) ∧ s = cook (piecesOf ns) := by
  unfold stringOf at h
  split at h
  · cases h
  · rename_i hnone
    refine ⟨fun n hn => (hns n hn).resolve_right ?_, (Except.ok.inj h).symm⟩
    rintro ⟨a, b, ms, rfl⟩
    simpa [kind] using List.find?_eq_none.mp hnone _ hn

theorem number_eq_ok_iff {negative : Bool} {s : String} {offset : Nat} {x : Json.Number} :
    number negative s offset = .ok x ↔ number? negative s = some x := by
  unfold number
  split <;> simp_all

theorem keyOf_of_names {key : Node source} {k : String} (h : Names key k) : keyOf key = .ok k := by
  cases h with
  | name => rfl
  | string h => exact stringOf_of_leaves h
  | number h => simp [keyOf, kind, text, start, number_eq_ok_iff.mpr h, Except.map]

theorem map_eq_ok_iff {α β : Type} {r : Read α} {f : α → β} {b : β} :
    r.map f = .ok b ↔ ∃ a, r = .ok a ∧ f a = b := by
  cases r <;> simp [Except.map]

theorem bind_eq_ok_iff {α β : Type} {r : Read α} {f : α → Read β} {b : β} :
    r.bind f = .ok b ↔ ∃ a, r = .ok a ∧ f a = .ok b := by
  cases r <;> simp [Except.bind]

theorem names_of_keyOf {key : Node source} {k : String} (hkey : key.Shaped)
    (h : keyOf key = .ok k) : Names key k := by
  cases hkey with
  | @leaf kind m s hfault hquoted =>
    cases kind with
    | propertyName =>
      cases h
      exact .name
    | number =>
      obtain ⟨x, hx, rfl⟩ := map_eq_ok_iff.mp h
      exact .number (number_eq_ok_iff.mp hx)
    | string => cases hquoted
    | _ => cases h
  | @quoted kind a b ns hk hns =>
    cases kind with
    | string =>
      obtain ⟨hleaves, rfl⟩ := leaves_of_stringOf hns h
      exact .string hleaves
    | template => cases h
    | _ => cases hk
  | @hidden kind _ _ _ hk => cases kind <;> first | exact absurd hk Bool.false_ne_true | cases h
  | @listing kind _ _ _ hk => cases kind <;> first | exact absurd hk Bool.false_ne_true | cases h
  | pair => cases h
  | unary => cases h

/-! ### Every denotation is found -/

/-- The member that a node of an object makes. -/
def entryOf : Node source → Read (String × Json)
  | .branch .pair start _ (key :: rest) => do
    let k ← keyOf key
    let v ← lastValueOf start rest
    .ok (k, v)
  | n => refuse (memberConstructOf n.kind) n

theorem membersOf_skip {acc : Json.Members} {n : Node source} {ns : List (Node source)}
    (h : n.kind.isSignificant = false) : membersOf acc (n :: ns) = membersOf acc ns := by
  rw [membersOf.eq_def]
  simp [h]

theorem membersOf_cons {acc : Json.Members} {n : Node source} {ns : List (Node source)}
    (h : n.kind.isSignificant = true) :
    membersOf acc (n :: ns) = (entryOf n).bind fun e => membersOf (acc.set e.1 e.2) ns := by
  cases n with
  | leaf k m s => cases k <;> first | rfl | cases h
  | branch k a b children =>
    cases k with
    | pair =>
      cases children with
      | nil => rfl
      | cons key rest =>
        rw [membersOf, h, Bool.not_true, if_neg Bool.false_ne_true, entryOf]
        simp only [bind, Except.bind]
        cases keyOf key with
        | error e => rfl
        | ok k => cases lastValueOf a rest <;> rfl
    | _ => first | rfl | cases h

theorem itemsOf_comment {awaiting : Bool} {n : Node source} {ns : List (Node source)}
    (h : n.kind = .comment) : itemsOf awaiting (n :: ns) = itemsOf awaiting ns := by
  rw [itemsOf, if_pos h]

theorem itemsOf_punctuation {awaiting : Bool} {n : Node source} {ns : List (Node source)}
    (h : n.kind = .punctuation) :
    itemsOf awaiting (n :: ns) =
      if n.text = "," then if awaiting then refuse .hole n else itemsOf true ns
      else itemsOf awaiting ns := by
  rw [itemsOf, if_neg (by rw [h]; decide), if_pos h]

theorem itemsOf_cons {awaiting : Bool} {n : Node source} {ns : List (Node source)}
    (hcomment : n.kind ≠ .comment) (hpunctuation : n.kind ≠ .punctuation) :
    itemsOf awaiting (n :: ns) =
      (valueOf n).bind fun v => (itemsOf false ns).map (v :: ·) := by
  rw [itemsOf, if_neg hcomment, if_neg hpunctuation]
  cases valueOf n with
  | error e => rfl
  | ok v => cases itemsOf false ns <;> rfl

theorem lastValueOf_concat (start : Text.Mark source) (ns : List (Node source))
    (value : Node source) : lastValueOf start (ns ++ [value]) = valueOf value := by
  induction ns with
  | nil => rfl
  | cons n ns ih =>
    rw [← ih]
    cases ns <;> rfl

theorem signedOf_concat {a b : Text.Mark source} (sign : Node source) (between : List (Node source))
    (operand : Node source) :
    signedOf (.branch .unary a b (sign :: between ++ [operand])) =
      if (sign.text = "-" ∨ sign.text = "+") ∧ operand.kind = .number then
        (number (sign.text = "-") operand.text a.offset).map .number
      else refuse .unary (.branch .unary a b (sign :: between ++ [operand])) := by
  have hlast : (sign :: between ++ [operand]).getLast? = some operand := List.getLast?_concat
  rw [signedOf, children, hlast]
  rfl

variable {passed : Kind → Bool}

theorem sizeOf_last_lt (k : Kind) (a b : Text.Mark source) (ns : List (Node source))
    (n : Node source) : sizeOf n < sizeOf (Node.branch k a b (ns ++ [n])) := by
  have hmem : n ∈ ns ++ [n] := List.mem_append_right ns List.mem_cons_self
  have := List.sizeOf_lt_of_mem hmem
  rw [Node.branch.sizeOf_spec]
  omega

theorem Denotes.kind_ne {n : Node source} {v : Json} (h : Denotes passed n v) :
    n.kind ≠ .comment ∧ n.kind ≠ .punctuation := by
  cases h with
  | @text k _ _ _ hk =>
    constructor <;> rintro rfl <;> cases hk
  | _ => exact ⟨nofun, nofun⟩

mutual

theorem valueOf_of_denotes {n : Node source} {v : Json} (h : Denotes passed n v) :
    valueOf n = .ok v := by
  cases h with
  | trueWord => rfl
  | falseWord => rfl
  | nullWord => rfl
  | number h => rw [valueOf, number_eq_ok_iff.mpr h, Except.map]
  | @signed _ _ _ _ _ _ x _ hsign _ h =>
    rw [valueOf, signedOf_concat, if_pos ⟨hsign, rfl⟩]
    exact map_eq_ok_iff.mpr ⟨x, number_eq_ok_iff.mpr h, rfl⟩
  | @text k _ _ _ hk h =>
    cases k with
    | string => rw [valueOf, stringOf_of_leaves h, Except.map]
    | template => rw [valueOf, stringOf_of_leaves h, Except.map]
    | _ => cases hk
  | array h => rw [valueOf, itemsOf_of_items h, Except.map]
  | object h hms =>
    rw [valueOf, membersOf_of_pairs h, Except.map, Json.Members.merged_iff.mp hms]
    rfl
termination_by sizeOf n

theorem itemsOf_of_items {awaiting : Bool} {ns : List (Node source)} {vs : List Json}
    (h : Items passed awaiting ns vs) : itemsOf awaiting ns = .ok vs := by
  cases h with
  | nil => rfl
  | comment h => rw [itemsOf_comment rfl, itemsOf_of_items h]
  | bracket hs h => rw [itemsOf_punctuation rfl, text, if_neg hs, itemsOf_of_items h]
  | comma h => rw [itemsOf_punctuation rfl, text, if_pos rfl, if_neg nofun, itemsOf_of_items h]
  | item hn h =>
    rw [itemsOf_cons hn.kind_ne.1 hn.kind_ne.2, valueOf_of_denotes hn, Except.bind,
      itemsOf_of_items h, Except.map]
termination_by sizeOf ns

theorem membersOf_of_pairs {acc : Json.Members} {ns : List (Node source)}
    {es : List (String × Json)} (h : Pairs passed ns es) :
    membersOf acc ns = .ok (acc.setAll es) := by
  cases h with
  | nil => rfl
  | comment h => rw [membersOf_skip rfl, membersOf_of_pairs h]
  | punctuation h => rw [membersOf_skip rfl, membersOf_of_pairs h]
  | pair hn h =>
    obtain ⟨hsignificant, hentry⟩ := entryOf_of_pair hn
    rw [membersOf_cons hsignificant, hentry, Except.bind, membersOf_of_pairs h]
    rfl
termination_by sizeOf ns

theorem entryOf_of_pair {n : Node source} {e : String × Json} (h : Pair passed n e) :
    n.kind.isSignificant = true ∧ entryOf n = .ok e := by
  cases h with
  | intro hkey _ _ hvalue =>
    refine ⟨rfl, ?_⟩
    rw [List.cons_append, List.cons_append, entryOf, keyOf_of_names hkey, lastValueOf_concat,
      valueOf_of_denotes hvalue]
    rfl
termination_by sizeOf n
decreasing_by exact sizeOf_last_lt _ _ _ _ _

end

/-! ### Whatever is found is denoted -/

/-- What is found in a node is what it denotes, be it a value or a member of an object. -/
structure Faithful (n : Node source) : Prop where
  value : ∀ {v}, valueOf n = .ok v → Denotes Kind.isLayout n v
  entry : ∀ {e}, entryOf n = .ok e → Pair Kind.isLayout n e

/-- Only leaves are passed over. -/
theorem eq_leaf_of_shaped {n : Node source} (h : n.Shaped) (hn : n.kind.isSignificant = false) :
    ∃ m s, n = .leaf .comment m s ∨ n = .leaf .punctuation m s := by
  cases h with
  | @leaf k m s hfault =>
    cases k with
    | comment => exact ⟨m, s, .inl rfl⟩
    | punctuation => exact ⟨m, s, .inr rfl⟩
    | missing => cases hfault
    | _ => cases hn
  | @hidden k _ _ _ hk => cases k <;> first | exact absurd hk Bool.false_ne_true | cases hn
  | @listing k _ _ _ hk => cases k <;> first | exact absurd hk Bool.false_ne_true | cases hn
  | @quoted k _ _ _ hk => cases k <;> first | exact absurd hk Bool.false_ne_true | cases hn
  | pair => cases hn
  | unary => cases hn

theorem items_of_itemsOf {ns : List (Node source)} (hshaped : ∀ n ∈ ns, n.Shaped)
    (hns : ∀ n ∈ ns, Faithful n) {awaiting : Bool} {vs : List Json}
    (h : itemsOf awaiting ns = .ok vs) : Items Kind.isLayout awaiting ns vs := by
  induction ns generalizing awaiting vs with
  | nil =>
    cases h
    exact .nil
  | cons n ns ih =>
    rw [List.forall_mem_cons] at hshaped hns
    have ih {awaiting : Bool} {vs : List Json} := @ih hshaped.2 hns.2 awaiting vs
    cases hsignificant : n.kind.isSignificant with
    | false =>
      obtain ⟨m, s, rfl | rfl⟩ := eq_leaf_of_shaped hshaped.1 hsignificant
      · rw [itemsOf_comment rfl] at h
        exact .comment (ih h)
      · rw [itemsOf_punctuation rfl, text] at h
        by_cases hs : s = ","
        · subst hs
          cases awaiting with
          | true => cases h
          | false => exact .comma (ih h)
        · rw [if_neg hs] at h
          exact .bracket hs (ih h)
    | true =>
      have hcomment : n.kind ≠ .comment := fun hk => by rw [hk] at hsignificant; cases hsignificant
      have hpunctuation : n.kind ≠ .punctuation := fun hk => by
        rw [hk] at hsignificant
        cases hsignificant
      rw [itemsOf_cons hcomment hpunctuation] at h
      obtain ⟨v, hv, h⟩ := bind_eq_ok_iff.mp h
      obtain ⟨vs, hvs, rfl⟩ := map_eq_ok_iff.mp h
      exact .item (hns.1.value hv) (ih hvs)

theorem pairs_of_membersOf {ns : List (Node source)} (hshaped : ∀ n ∈ ns, n.Shaped)
    (hns : ∀ n ∈ ns, Faithful n) {acc ms : Json.Members} (h : membersOf acc ns = .ok ms) :
    ∃ es, Pairs Kind.isLayout ns es ∧ ms = acc.setAll es := by
  induction ns generalizing acc with
  | nil =>
    cases h
    exact ⟨[], .nil, rfl⟩
  | cons n ns ih =>
    rw [List.forall_mem_cons] at hshaped hns
    cases hsignificant : n.kind.isSignificant with
    | false =>
      rw [membersOf_skip hsignificant] at h
      obtain ⟨es, hes, rfl⟩ := ih hshaped.2 hns.2 h
      obtain ⟨m, s, rfl | rfl⟩ := eq_leaf_of_shaped hshaped.1 hsignificant
      · exact ⟨es, .comment hes, rfl⟩
      · exact ⟨es, .punctuation hes, rfl⟩
    | true =>
      rw [membersOf_cons hsignificant] at h
      obtain ⟨e, he, h⟩ := bind_eq_ok_iff.mp h
      obtain ⟨es, hes, rfl⟩ := ih hshaped.2 hns.2 h
      exact ⟨e :: es, .pair (hns.1.entry he) hes, rfl⟩

theorem faithful_of_shaped {n : Node source} (h : n.Shaped) : Faithful n := by
  induction h with
  | @leaf k m s hfault hquoted =>
    refine ⟨fun {v} hv => ?_, fun he => by cases k <;> cases he⟩
    cases k with
    | number =>
      obtain ⟨x, hx, rfl⟩ := map_eq_ok_iff.mp hv
      exact .number (number_eq_ok_iff.mp hx)
    | trueWord =>
      cases hv
      exact .trueWord
    | falseWord =>
      cases hv
      exact .falseWord
    | nullWord =>
      cases hv
      exact .nullWord
    | _ => cases hv
  | @hidden k a b ns hk =>
    constructor <;> intro _ h <;> cases k <;>
      first | exact absurd hk Bool.false_ne_true | cases h
  | @listing k a b ns hk hns ih =>
    refine ⟨fun {v} hv => ?_, fun he => ?_⟩
    · cases k with
      | object =>
        obtain ⟨ms, hms, rfl⟩ := map_eq_ok_iff.mp hv
        obtain ⟨es, hes, rfl⟩ := pairs_of_membersOf hns ih hms
        exact .object hes (Json.Members.merged_ofList es)
      | array =>
        obtain ⟨vs, hvs, rfl⟩ := map_eq_ok_iff.mp hv
        exact .array (items_of_itemsOf hns ih hvs)
      | _ => first | exact absurd hk Bool.false_ne_true | cases hv
    · cases k <;> first | exact absurd hk Bool.false_ne_true | cases he
  | @quoted k a b ns hk hns =>
    refine ⟨fun {v} hv => ?_, fun he => ?_⟩
    · have hv : (stringOf (.branch k a b ns)).map Json.string = .ok v := by
        cases k <;> first | exact absurd hk Bool.false_ne_true | exact hv
      obtain ⟨s, hs, rfl⟩ := map_eq_ok_iff.mp hv
      obtain ⟨hleaves, rfl⟩ := leaves_of_stringOf hns hs
      exact .text hk hleaves
    · cases k <;> first | exact absurd hk Bool.false_ne_true | cases he
  | @pair a b m key value before after hkey hbefore hafter hvalue _ ih =>
    refine ⟨nofun, fun {e} he => ?_⟩
    rw [List.cons_append, List.cons_append, entryOf] at he
    obtain ⟨k, hk, he⟩ := bind_eq_ok_iff.mp he
    obtain ⟨v, hv, he⟩ := bind_eq_ok_iff.mp he
    cases he
    rw [lastValueOf_concat] at hv
    exact .intro (names_of_keyOf hkey hk) hbefore hafter (ih.value hv)
  | @unary a b s operand between hbetween hoperand =>
    refine ⟨fun {v} hv => ?_, fun he => by cases he⟩
    rw [valueOf, signedOf_concat] at hv
    split at hv
    · rename_i hcond
      obtain ⟨x, hx, rfl⟩ := map_eq_ok_iff.mp hv
      cases hoperand with
      | leaf =>
        cases hcond.2
        exact .signed hcond.1 hbetween (number_eq_ok_iff.mp hx)
      | @hidden k _ _ _ hk => cases hcond.2; cases hk
      | @listing k _ _ _ hk => cases hcond.2; cases hk
      | @quoted k _ _ _ hk => cases hcond.2; cases hk
      | pair => cases hcond.2
      | unary => cases hcond.2
    · cases hv

/-- The walk over a tree finds exactly what the tree denotes. -/
theorem valueOf_eq_ok_iff {n : Node source} (h : n.Shaped) {v : Json} :
    valueOf n = .ok v ↔ Denotes Kind.isLayout n v :=
  ⟨(faithful_of_shaped h).value, valueOf_of_denotes⟩

theorem parseLiteral_of_soleValue {text : String} {inner : Node (enclosed text)}
    (hfault : (parse (enclosed text)).firstFault? = none)
    (hinner : soleValue? (parse (enclosed text)) = some inner) :
    parseLiteral text = (valueOf inner).mapError (·.move (· - 1)) := by
  rw [parseLiteral, enclosedValue, hfault]
  simp only [hinner]

end Workyard.Options
