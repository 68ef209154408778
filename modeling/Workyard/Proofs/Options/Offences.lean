import Workyard.Log
import Workyard.Proofs.Options.Denotation
import Workyard.Proofs.Script.Reading

/-!
# What no literal may hold

The constructs of a tree that stand where a literal may not have them, all of them and in the
order of the source. The walk over the tree stops at the first, wherever it stands.
-/

namespace Workyard.Options

set_option autoImplicit false

open Script Script.Node

variable {source : List Char}

/-! ### Offences -/

def numberOffences (negative : Bool) (s : String) (offset : Nat) : List OptionError :=
  if (number? negative s).isSome then []
  else [.invalidNumber (if negative then "-" ++ s else s) offset]

def textOffences (ns : List (Node source)) : List OptionError :=
  (ns.filter (·.kind = .substitution)).map fun n => .unsupported .substitution n.start.offset

def keyOffences (n : Node source) : List OptionError :=
  match n.kind with
  | .propertyName => []
  | .string => textOffences n.children
  | .number => numberOffences false n.text n.start.offset
  | .computedKey => [.unsupported .computedKey n.start.offset]
  | _ => [.unsupported .propertyKey n.start.offset]

def signOffences (n : Node source) : List OptionError :=
  match n.children.head?, n.children.getLast? with
  | some sign, some operand =>
    if (sign.text = "-" ∨ sign.text = "+") ∧ operand.kind = .number then
      numberOffences (sign.text = "-") operand.text n.start.offset
    else [.unsupported .unary n.start.offset]
  | _, _ => [.unsupported .unary n.start.offset]

mutual

/-- The constructs in the tree of a value that are out of place. -/
def offences : Node source → List OptionError
  | .leaf k m text =>
    match k with
    | .number => numberOffences false text m.offset
    | .trueWord | .falseWord | .nullWord => []
    | k => [.unsupported (constructOf k) m.offset]
  | .branch k start stop ns =>
    match k with
    | .object => memberOffences ns
    | .array => itemOffences true ns
    | .string | .template => textOffences ns
    | .unary => signOffences (.branch k start stop ns)
    | k => [.unsupported (constructOf k) start.offset]

def memberOffences : List (Node source) → List OptionError
  | [] => []
  | n :: ns => (if n.kind.isSignificant then entryOffences n else []) ++ memberOffences ns

/-- Those in a member of an object: in its key, then in its value. -/
def entryOffences : Node source → List OptionError
  | .branch .pair start _ (key :: rest) => keyOffences key ++ lastOffences start rest
  | n => [.unsupported (memberConstructOf n.kind) n.start.offset]

def lastOffences (start : Text.Mark source) : List (Node source) → List OptionError
  | [] => [.unsupported .property start.offset]
  | [n] => offences n
  | _ :: ns => lastOffences start ns

/-- Those in the items of an array, with the commas that come before any item. -/
def itemOffences (awaiting : Bool) : List (Node source) → List OptionError
  | [] => []
  | n :: ns =>
    if n.kind = .comment then itemOffences awaiting ns
    else if n.kind = .punctuation then
      if n.text = "," then
        (if awaiting then [.unsupported .hole n.start.offset] else []) ++ itemOffences true ns
      else itemOffences awaiting ns
    else offences n ++ itemOffences false ns

end

/-! ### The first offence decides -/

/-- A result that is right when these are all offences: a value if there are none, and else the
first. -/
def Settles {α : Type} (r : Read α) (es : List OptionError) : Prop :=
  match r with
  | .ok _ => es = []
  | .error e => es.head? = some e

namespace Settles

variable {α β : Type} {r : Read α} {es es' : List OptionError}

theorem map {f : α → β} (h : Settles r es) : Settles (r.map f) es := by
  cases r <;> exact h

theorem bind {f : α → Read β} (h : Settles r es) (hf : ∀ a, Settles (f a) es') :
    Settles (r.bind f) (es ++ es') := by
  cases r with
  | ok a =>
    have h : es = [] := h
    rw [h]
    exact hf a
  | error e =>
    have h : es.head? = some e := h
    show (es ++ es').head? = some e
    rw [List.head?_append, h]
    rfl

theorem error_iff (h : Settles r es) {e : OptionError} : r = .error e ↔ es.head? = some e := by
  cases r with
  | ok a =>
    have h : es = [] := h
    simp [h]
  | error e' =>
    have h : es.head? = some e' := h
    simp [h]

end Settles

theorem settles_refuse {α : Type} (c : Construct) (n : Node source) :
    Settles (refuse c n : Read α) [.unsupported c n.start.offset] :=
  rfl

theorem settles_number (negative : Bool) (s : String) (offset : Nat) :
    Settles (number negative s offset) (numberOffences negative s offset) := by
  unfold number numberOffences
  cases number? negative s <;> rfl

theorem settles_stringOf (n : Node source) : Settles (stringOf n) (textOffences n.children) := by
  unfold stringOf textOffences
  cases hfound : n.children.find? (·.kind = .substitution) with
  | none =>
    have hnone := List.filter_eq_nil_iff.mpr (List.find?_eq_none.mp hfound)
    rw [hnone]
    rfl
  | some s =>
    show List.head? _ = _
    rw [List.head?_map, List.head?_filter, hfound]
    rfl

theorem settles_keyOf (n : Node source) : Settles (keyOf n) (keyOffences n) := by
  unfold keyOf keyOffences
  generalize n.kind = k
  cases k with
  | string => exact settles_stringOf n
  | number => exact (settles_number ..).map
  | _ => rfl

theorem settles_signedOf (n : Node source) : Settles (signedOf n) (signOffences n) := by
  unfold signedOf signOffences
  rcases n.children.head? with _ | sign
  · rfl
  · rcases n.children.getLast? with _ | operand
    · rfl
    · by_cases h : (sign.text = "-" ∨ sign.text = "+") ∧ operand.kind = .number
      · simp only [if_pos h]
        exact (settles_number ..).map
      · simp only [if_neg h]
        exact settles_refuse .unary n

theorem memberOffences_cons {n : Node source} {ns : List (Node source)}
    (h : n.kind.isSignificant = true) :
    memberOffences (n :: ns) = entryOffences n ++ memberOffences ns := by
  rw [memberOffences, if_pos h]

mutual

theorem settles_valueOf (n : Node source) : Settles (valueOf n) (offences n) := by
  cases n with
  | leaf k m s =>
    cases k with
    | number => exact (settles_number ..).map
    | _ => rfl
  | branch k a b ns =>
    cases k with
    | object => exact (settles_membersOf [] ns).map
    | array => exact (settles_itemsOf true ns).map
    | string => exact (settles_stringOf _).map
    | template => exact (settles_stringOf _).map
    | unary => exact settles_signedOf _
    | _ => rfl
termination_by sizeOf n

theorem settles_membersOf (acc : Json.Members) (ns : List (Node source)) :
    Settles (membersOf acc ns) (memberOffences ns) := by
  cases ns with
  | nil => rfl
  | cons n ns =>
    cases hn : n.kind.isSignificant with
    | false =>
      rw [membersOf_skip hn, memberOffences, hn]
      exact settles_membersOf acc ns
    | true =>
      rw [membersOf_cons hn, memberOffences_cons hn]
      exact (settles_entryOf n).bind fun e => settles_membersOf _ ns
termination_by sizeOf ns

theorem settles_entryOf (n : Node source) : Settles (entryOf n) (entryOffences n) := by
  cases n with
  | leaf k m s => rfl
  | branch k a b ns =>
    cases k with
    | pair =>
      cases ns with
      | nil => rfl
      | cons key rest =>
        rw [entryOf, entryOffences, ← List.append_nil (lastOffences a rest)]
        exact (settles_keyOf key).bind fun k =>
          (settles_lastValueOf a rest).bind fun v => rfl
    | _ => rfl
termination_by sizeOf n

theorem settles_lastValueOf (start : Text.Mark source) (ns : List (Node source)) :
    Settles (lastValueOf start ns) (lastOffences start ns) := by
  match ns with
  | [] => rfl
  | [n] => exact settles_valueOf n
  | _ :: n :: ns => exact settles_lastValueOf start (n :: ns)
termination_by sizeOf ns

theorem settles_itemsOf (awaiting : Bool) (ns : List (Node source)) :
    Settles (itemsOf awaiting ns) (itemOffences awaiting ns) := by
  cases ns with
  | nil => rfl
  | cons n ns =>
    by_cases hcomment : n.kind = .comment
    · rw [itemsOf_comment hcomment, itemOffences, if_pos hcomment]
      exact settles_itemsOf awaiting ns
    · by_cases hpunctuation : n.kind = .punctuation
      · rw [itemsOf_punctuation hpunctuation, itemOffences, if_neg hcomment, if_pos hpunctuation]
        split
        · cases awaiting with
          | true => rfl
          | false => exact settles_itemsOf true ns
        · exact settles_itemsOf awaiting ns
      · rw [itemsOf_cons hcomment hpunctuation, itemOffences, if_neg hcomment,
          if_neg hpunctuation]
        exact (settles_valueOf n).bind fun v => (settles_itemsOf false ns).map
termination_by sizeOf ns

end

/-! ### Texts -/

theorem shaped_of_mem {n c : Node source} (h : n.Shaped) (hk : n.kind.isListing = true)
    (hc : c ∈ n.children) : c.Shaped := by
  cases h with
  | leaf => cases hc
  | @hidden k _ _ _ hopaque => cases k <;> first | exact absurd hk Bool.false_ne_true | cases hopaque
  | listing _ h => exact h c hc
  | @quoted k _ _ _ hquoted => cases k <;> first | exact absurd hk Bool.false_ne_true | cases hquoted
  | pair => cases hk
  | unary => cases hk

theorem mem_children_of_mem_significant {n c : Node source} (h : c ∈ n.significant) :
    c ∈ n.children :=
  (List.mem_filter.mp h).1

theorem shaped_soleValue {root inner : Node source} (h : root.Shaped)
    (hroot : root.kind.isListing = true) (hinner : soleValue? root = some inner) :
    inner.Shaped := by
  unfold soleValue? at hinner
  split at hinner
  · rename_i statement hstatement
    split at hinner
    · rename_i hkind
      split at hinner
      · rename_i e es he
        split at hinner
        · rename_i hcond
          have hstatement := shaped_of_mem h hroot
            (mem_children_of_mem_significant (hstatement ▸ List.mem_cons_self))
          have he := shaped_of_mem hstatement (by rw [hkind]; rfl)
            (mem_children_of_mem_significant (he ▸ List.mem_cons_self))
          exact shaped_of_mem he (by rw [hcond.1]; rfl)
            (mem_children_of_mem_significant (List.mem_of_head? hinner))
        · cases hinner
      · cases hinner
    · cases hinner
  · cases hinner

/-- A text without a fault has the value that its tree denotes, when that is a literal, and
else the error of the first construct that no literal may hold. -/
theorem parseLiteral_walks {text : String} {inner : Node (enclosed text)}
    (hfault : (parse (enclosed text)).firstFault? = none)
    (hinner : soleValue? (parse (enclosed text)) = some inner) :
    (∀ v, parseLiteral text = .ok v ↔ Denotes Kind.isLayout inner v) ∧
      ∀ e, parseLiteral text = .error e ↔
        ((offences inner).map (·.move (· - 1))).head? = some e := by
  have hshaped := shaped_soleValue (shaped_parse hfault) rfl hinner
  have hsettles := settles_valueOf inner
  rw [parseLiteral_of_soleValue hfault hinner]
  refine ⟨fun v => ?_, fun e => ?_⟩
  · rw [← valueOf_eq_ok_iff hshaped]
    exact Logged.mapError_eq_ok
  · rw [List.head?_map]
    cases hvalue : valueOf inner with
    | ok v =>
      rw [hvalue] at hsettles
      have hnone : offences inner = [] := hsettles
      rw [hnone]
      exact iff_of_false (by rintro ⟨⟩) (by rintro ⟨⟩)
    | error e' =>
      rw [hsettles.error_iff.mp hvalue]
      show Except.error _ = Except.error e ↔ some _ = some e
      simp only [Except.error.injEq, Option.some.injEq]

theorem parseLiteral_walks_names :
    (∃ (inner : Node (enclosed "[1, c, d]")),
      soleValue? (parse (enclosed "[1, c, d]")) = some inner ∧
      offences inner = [.unsupported .identifier 5, .unsupported .identifier 8] ∧
      parseLiteral "[1, c, d]" = .error (.unsupported .identifier 4)) ∧
    ∃ (inner : Node (enclosed "\x7ba: -1, a: [2,]\x7d")) (v : Json),
      soleValue? (parse (enclosed "\x7ba: -1, a: [2,]\x7d")) = some inner ∧
      parseLiteral "\x7ba: -1, a: [2,]\x7d" = .ok v ∧ Denotes Kind.isLayout inner v := by
  constructor
  · obtain ⟨hfault, hsome⟩ : (parse (enclosed "[1, c, d]")).firstFault? = none ∧
        (soleValue? (parse (enclosed "[1, c, d]"))).map offences =
          some [.unsupported .identifier 5, .unsupported .identifier 8] := by
      decide +kernel
    obtain ⟨inner, hinner, hoffences⟩ := Option.map_eq_some_iff.mp hsome
    refine ⟨inner, hinner, hoffences, ((parseLiteral_walks hfault hinner).2 _).mpr ?_⟩
    rw [hoffences]
    rfl
  · obtain ⟨hfault, hsome, hok⟩ : (parse (enclosed "\x7ba: -1, a: [2,]\x7d")).firstFault? = none ∧
        (soleValue? (parse (enclosed "\x7ba: -1, a: [2,]\x7d"))).isSome ∧
        (parseLiteral "\x7ba: -1, a: [2,]\x7d").isOk := by
      decide +kernel
    obtain ⟨inner, hinner⟩ := Option.isSome_iff_exists.mp hsome
    cases hv : parseLiteral "\x7ba: -1, a: [2,]\x7d" with
    | error e => rw [hv] at hok; cases hok
    | ok v => exact ⟨inner, v, hinner, rfl, ((parseLiteral_walks hfault hinner).1 v).mp hv⟩

/-! ### Comments in the manner of HTML -/

/-- What stands in a pair beside the key, the colon and the value is passed over. -/
theorem Pair.passed_of_mem {passed : Kind → Bool} {n c : Node source} {e : String × Json}
    (h : Pair passed n e) (hc : c ∈ n.children) (hk : c.kind = .htmlComment) :
    passed .htmlComment = true := by
  have hleaf {ns : List (Node source)} (hns : ∀ n ∈ ns, n.IsLeafOf passed) (hmem : c ∈ ns) :
      passed .htmlComment = true := by
    obtain ⟨k, m, s, rfl, hpassed⟩ := hns c hmem
    exact hk ▸ hpassed
  cases h with
  | intro hkey hbefore hafter hvalue =>
    simp only [children, List.cons_append, List.append_assoc, List.mem_cons,
      List.mem_append] at hc
    rcases hc with rfl | hc | rfl | hc | rfl | hc
    · cases hkey <;> cases hk
    · exact hleaf hbefore hc
    · cases hk
    · exact hleaf hafter hc
    · cases hvalue with
      | text hquoted => cases hk; cases hquoted
      | _ => cases hk
    · cases hc

theorem Pairs.pair_of_mem {passed : Kind → Bool} {ns : List (Node source)}
    {es : List (String × Json)} {n : Node source} (h : Pairs passed ns es) (hn : n ∈ ns)
    (hk : n.kind = .pair) : ∃ e, Pair passed n e := by
  induction ns generalizing es with
  | nil => cases hn
  | cons n' ns ih =>
    rcases List.mem_cons.mp hn with rfl | hmem
    · cases h with
      | pair hpair => exact ⟨_, hpair⟩
      | _ => cases hk
    · cases h with
      | comment h => exact ih h hmem
      | punctuation h => exact ih h hmem
      | pair _ h => exact ih h hmem

/-- Comments in the manner of HTML are passed over in a pair, although they are no plain ones. -/
theorem parseLiteral_passes_htmlComment :
    ¬ ∀ (text : String) (inner : Node (enclosed text)),
      (parse (enclosed text)).firstFault? = none →
      soleValue? (parse (enclosed text)) = some inner →
      ∀ v, parseLiteral text = .ok v ↔ Denotes (· = .comment) inner v := by
  intro hall
  obtain ⟨hfault, hok, hsome⟩ : (parse (enclosed "\x7ba:<!-- c\n1\x7d")).firstFault? = none ∧
      (parseLiteral "\x7ba:<!-- c\n1\x7d").isOk ∧
      (soleValue? (parse (enclosed "\x7ba:<!-- c\n1\x7d"))).any fun inner =>
        inner.kind = .object ∧ inner.children.any fun n =>
          n.kind = .pair ∧ n.children.any (·.kind = .htmlComment) := by
    decide +kernel
  obtain ⟨inner, hinner, hmarked⟩ := (Option.any_eq_true _ _).mp hsome
  obtain ⟨hobject, hmarked⟩ := of_decide_eq_true hmarked
  obtain ⟨n, hn, hmarked⟩ := List.any_eq_true.mp hmarked
  obtain ⟨hpair, hmarked⟩ := of_decide_eq_true hmarked
  obtain ⟨c, hc, hcomment⟩ := List.any_eq_true.mp hmarked
  cases hv : parseLiteral "\x7ba:<!-- c\n1\x7d" with
  | error e => rw [hv] at hok; cases hok
  | ok v =>
    cases (hall _ inner hfault hinner v).mp hv with
    | object hpairs =>
      obtain ⟨e, he⟩ := hpairs.pair_of_mem hn hpair
      have hpassed := he.passed_of_mem hc (of_decide_eq_true hcomment)
      cases hpassed
    | @text k _ _ _ hquoted =>
      rw [show k = .object from hobject] at hquoted
      cases hquoted
    | _ => cases hobject

end Workyard.Options
