import Workyard.Proofs.Options.Markers
import Workyard.Proofs.Options.Offences
import Workyard.Proofs.Script.Fronts

/-!
# Where errors point

The offset of an error is the place in the text where the construct starts that is reported, although
it is the text in parentheses that is read. The reading starts behind the first parenthesis, and
nothing that can be reported starts at the last one. Options that stand in a script are reported at
the place in the script.
-/

namespace Workyard.Options

set_option autoImplicit false

open Script Script.Node Script.Draft Text

variable {source : List Char}

/-! ### What is reported -/

/-- Nodes that may have a value. -/
def isLiteral : Node source → Bool
  | .leaf k _ _ => [.number, .trueWord, .falseWord, .nullWord].contains k
  | .branch k _ _ _ => [.object, .array, .string, .template, .unary].contains k

def isPair : Node source → Bool
  | .branch .pair _ _ _ => true
  | _ => false

/-- The nodes that are refused under the name of a construct. -/
def Construct.Describes (n : Node source) : Construct → Prop
  | .identifier => n.kind = .name ∨ n.kind = .undefinedWord
  | .spread => n.kind = .spread
  | .call => n.kind = .call ∨ n.kind = .construction
  | .parentheses => n.kind = .parenthesized
  | .function => n.kind = .function
  | .regex => n.kind = .regex
  | .expression => constructOf n.kind = .expression ∧ isLiteral n = false
  | .property => memberConstructOf n.kind = .property ∧ isPair n = false
  | .shorthand => n.kind = .shorthand
  | .method => n.kind = .method
  | .computedKey => n.kind = .computedKey
  | .propertyKey => n.kind ∉ [.propertyName, .string, .number, .computedKey]
  | .hole => n.kind = .punctuation ∧ n.text = ","
  | .unary => n.kind = .unary
  | .substitution => n.kind = .substitution

/-- The node is what the error reports, and it starts at the offset of the error. A signed number
starts with its sign. -/
inductive Offends : Node source → OptionError → Prop
  | construct {n c} (h : c.Describes n) : Offends n (.unsupported c n.start.offset)
  | number {m s} (h : number? false s = none) :
      Offends (.leaf .number m s) (.invalidNumber s m.offset)
  | signed {a b m sign s} {between : List (Node source)} (hsign : sign = "-" ∨ sign = "+")
      (h : number? (sign = "-") s = none) :
      Offends (.branch .unary a b (.leaf .punctuation a sign :: between ++ [.leaf .number m s]))
        (.invalidNumber (if sign = "-" then "-" ++ s else s) a.offset)

theorem Offends.offset_eq {n : Node source} {e : OptionError} (h : Offends n e) :
    e.offset = n.start.offset := by
  cases h <;> rfl

theorem describes_constructOf {n : Node source} (h : isLiteral n = false) :
    (constructOf n.kind).Describes n := by
  have hexpression : constructOf n.kind = .expression → (constructOf n.kind).Describes n := by
    intro heq
    rw [heq]
    exact ⟨heq, h⟩
  revert hexpression
  cases hk : n.kind with
  | name => exact fun _ => .inl hk
  | undefinedWord => exact fun _ => .inr hk
  | call => exact fun _ => .inl hk
  | construction => exact fun _ => .inr hk
  | spread | parenthesized | function | regex => exact fun _ => hk
  | _ => exact fun hexpression => hexpression rfl

theorem describes_memberConstructOf {n : Node source} (h : isPair n = false) :
    (memberConstructOf n.kind).Describes n := by
  have hproperty : memberConstructOf n.kind = .property → (memberConstructOf n.kind).Describes n := by
    intro heq
    rw [heq]
    exact ⟨heq, h⟩
  revert hproperty
  cases hk : n.kind with
  | shorthand | spread | method => exact fun _ => hk
  | _ => exact fun hproperty => hproperty rfl

theorem offends_of_mem_numberOffences {m : Mark source} {s : String} {e : OptionError}
    (he : e ∈ numberOffences false s m.offset) : Offends (.leaf .number m s) e := by
  unfold numberOffences at he
  split at he
  · cases he
  · rename_i hnone
    obtain rfl := List.mem_singleton.mp he
    exact .number (Option.not_isSome_iff_eq_none.mp hnone)

theorem exists_offends_of_textOffences {ns : List (Node source)} {e : OptionError}
    (he : e ∈ textOffences ns) : ∃ n ∈ ns, Offends n e := by
  obtain ⟨n, hn, rfl⟩ := List.mem_map.mp he
  obtain ⟨hmem, hk⟩ := List.mem_filter.mp hn
  have hk : n.kind = .substitution := of_decide_eq_true hk
  exact ⟨n, hmem, .construct (c := .substitution) hk⟩

/-- What is wrong in the node is the node itself or stands below it, between marks of its own. -/
def Blamed (n : Node source) (e : OptionError) : Prop :=
  Offends n e ∨ n.kind.isDelimited = true ∧ ∃ c ∈ n.children, ∃ m ∈ c.preorder, Offends m e

theorem self_mem_preorder (n : Node source) : n ∈ n.preorder := by
  cases n with
  | leaf => exact List.mem_singleton_self _
  | branch => exact List.mem_cons_self

theorem mem_preorder_of_mem_children {n c m : Node source} (hc : c ∈ n.children)
    (hm : m ∈ c.preorder) : m ∈ n.preorder := by
  cases n with
  | leaf => cases hc
  | branch => exact mem_preorder_branch.mpr (.inr ⟨c, hc, hm⟩)

theorem Blamed.exists_mem {n : Node source} {e : OptionError} (h : Blamed n e) :
    ∃ m ∈ n.preorder, Offends m e := by
  rcases h with h | ⟨-, c, hc, m, hm, h⟩
  · exact ⟨n, self_mem_preorder n, h⟩
  · exact ⟨m, mem_preorder_of_mem_children hc hm, h⟩

theorem Blamed.of_text {n : Node source} {e : OptionError} (hk : n.kind.isDelimited = true)
    (he : e ∈ textOffences n.children) : Blamed n e := by
  obtain ⟨c, hc, h⟩ := exists_offends_of_textOffences he
  exact .inr ⟨hk, c, hc, c, self_mem_preorder c, h⟩

theorem blamed_of_keyOffences {key : Node source} (hkey : key.Shaped) {e : OptionError}
    (he : e ∈ keyOffences key) : Blamed key e := by
  have hother (h : key.kind ∉ [.propertyName, .string, .number, .computedKey])
      (he : e ∈ [OptionError.unsupported .propertyKey key.start.offset]) : Blamed key e := by
    obtain rfl := List.mem_singleton.mp he
    exact .inl (.construct (c := .propertyKey) h)
  unfold keyOffences at he
  cases hk : key.kind with
  | propertyName => rw [hk] at he; cases he
  | string =>
    rw [hk] at he
    exact .of_text (by rw [hk]; rfl) he
  | number =>
    rw [hk] at he
    cases hkey with
    | leaf =>
      cases hk
      exact .inl (offends_of_mem_numberOffences he)
    | hidden hopaque => cases hk; cases hopaque
    | listing hlisting => cases hk; cases hlisting
    | quoted hquoted => cases hk; cases hquoted
    | pair => cases hk
    | unary => cases hk
  | computedKey =>
    rw [hk] at he
    obtain rfl := List.mem_singleton.mp he
    exact .inl (.construct (c := .computedKey) hk)
  | _ =>
    rw [hk] at he
    exact hother (by rw [hk]; decide) he

theorem lastOffences_concat (start : Mark source) (ns : List (Node source)) (n : Node source) :
    lastOffences start (ns ++ [n]) = offences n := by
  induction ns with
  | nil => rfl
  | cons m ns ih =>
    cases ns with
    | nil => rfl
    | cons => exact ih

theorem exists_of_memberOffences {ns : List (Node source)} {e : OptionError}
    (he : e ∈ memberOffences ns) : ∃ n ∈ ns, e ∈ entryOffences n := by
  induction ns with
  | nil => cases he
  | cons n ns ih =>
    rw [memberOffences] at he
    rcases List.mem_append.mp he with he | he
    · split at he
      · exact ⟨n, List.mem_cons_self, he⟩
      · cases he
    · obtain ⟨m, hm, he⟩ := ih he
      exact ⟨m, List.mem_cons_of_mem n hm, he⟩

/-- A comma where an item is awaited, or something in an item. -/
theorem exists_of_itemOffences {awaiting : Bool} {ns : List (Node source)} {e : OptionError}
    (he : e ∈ itemOffences awaiting ns) : ∃ n ∈ ns, Offends n e ∨ e ∈ offences n := by
  induction ns generalizing awaiting with
  | nil => cases he
  | cons n ns ih =>
    have hlater {awaiting : Bool} (he : e ∈ itemOffences awaiting ns) :
        ∃ m ∈ n :: ns, Offends m e ∨ e ∈ offences m := by
      obtain ⟨m, hm, he⟩ := ih he
      exact ⟨m, List.mem_cons_of_mem n hm, he⟩
    rw [itemOffences] at he
    split at he
    · exact hlater he
    · split at he
      · rename_i hpunctuation
        split at he
        · rename_i hcomma
          rcases List.mem_append.mp he with he | he
          · split at he
            · obtain rfl := List.mem_singleton.mp he
              exact ⟨n, List.mem_cons_self, .inl (.construct (c := .hole) ⟨hpunctuation, hcomma⟩)⟩
            · cases he
          · exact hlater he
        · exact hlater he
      · rcases List.mem_append.mp he with he | he
        · exact ⟨n, List.mem_cons_self, .inr he⟩
        · exact hlater he

theorem offends_of_signOffences {a b : Mark source} {sign : String} {operand : Node source}
    {between : List (Node source)} (hoperand : operand.Shaped) {e : OptionError}
    (he : e ∈ signOffences
      (.branch .unary a b (.leaf .punctuation a sign :: between ++ [operand]))) :
    Offends (.branch .unary a b (.leaf .punctuation a sign :: between ++ [operand])) e := by
  have hlast : (Node.leaf .punctuation a sign :: between ++ [operand]).getLast? = some operand :=
    List.getLast?_concat
  have he : e ∈ if (sign = "-" ∨ sign = "+") ∧ operand.kind = .number then
      numberOffences (sign = "-") operand.text a.offset
    else [.unsupported .unary a.offset] := by
    rw [signOffences, children, hlast] at he
    exact he
  by_cases hcond : (sign = "-" ∨ sign = "+") ∧ operand.kind = .number
  · rw [if_pos hcond] at he
    cases hoperand with
    | @leaf k m s =>
      obtain rfl : k = .number := hcond.2
      unfold numberOffences at he
      split at he
      · cases he
      · rename_i hnone
        obtain rfl := List.mem_singleton.mp he
        simp only [decide_eq_true_eq]
        exact .signed hcond.1 (Option.not_isSome_iff_eq_none.mp hnone)
    | @hidden k _ _ _ hk => cases hcond.2; cases hk
    | @listing k _ _ _ hk => cases hcond.2; cases hk
    | @quoted k _ _ _ hk => cases hcond.2; cases hk
    | pair => cases hcond.2
    | unary => cases hcond.2
  · rw [if_neg hcond] at he
    obtain rfl := List.mem_singleton.mp he
    exact .construct (n := .branch .unary a b _) (c := .unary) rfl

/-- What is out of place in a value and in a member. -/
structure Traced (n : Node source) : Prop where
  value : ∀ e ∈ offences n, Blamed n e
  entry : ∀ e ∈ entryOffences n, ∃ m ∈ n.preorder, Offends m e

theorem traced_entry {n : Node source} (hn : isPair n = false) :
    ∀ e ∈ entryOffences n, ∃ m ∈ n.preorder, Offends m e := by
  intro e he
  have hself : e = .unsupported (memberConstructOf n.kind) n.start.offset := by
    unfold entryOffences at he
    split at he
    · cases hn
    · exact List.mem_singleton.mp he
  rw [hself]
  exact ⟨n, self_mem_preorder n, .construct (describes_memberConstructOf hn)⟩

theorem traced_value {k : Kind} {a b : Mark source} {ns : List (Node source)}
    (hk : isLiteral (.branch k a b ns) = false) :
    ∀ e ∈ offences (.branch k a b ns), Blamed (.branch k a b ns) e := by
  intro e he
  have hself : e = .unsupported (constructOf k) a.offset := by
    cases k <;> first | exact absurd hk (by decide : ¬ true = false) | exact List.mem_singleton.mp he
  rw [hself]
  exact .inl (.construct (describes_constructOf hk))

theorem traced_leaf (k : Kind) (m : Mark source) (s : String) :
    ∀ e ∈ offences (.leaf k m s), Blamed (.leaf k m s) e := by
  intro e he
  have hother (hk : isLiteral (.leaf k m s) = false)
      (he : e ∈ [OptionError.unsupported (constructOf k) m.offset]) : Blamed (.leaf k m s) e := by
    obtain rfl := List.mem_singleton.mp he
    exact .inl (.construct (describes_constructOf hk))
  cases k with
  | number => exact .inl (offends_of_mem_numberOffences he)
  | trueWord | falseWord | nullWord => cases he
  | _ => exact hother rfl he

theorem traced_of_shaped {n : Node source} (h : n.Shaped) : Traced n := by
  induction h with
  | @leaf k m s => exact ⟨traced_leaf k m s, traced_entry rfl⟩
  | @hidden k a b ns hk =>
    have hliteral : isLiteral (.branch k a b ns) = false := by
      cases k <;> first | rfl | exact absurd hk Bool.false_ne_true
    have hpair : isPair (.branch k a b ns) = false := by
      cases k <;> first | rfl | exact absurd hk Bool.false_ne_true
    exact ⟨traced_value hliteral, traced_entry hpair⟩
  | @listing k a b ns hk _ ih =>
    have hpair : isPair (.branch k a b ns) = false := by
      cases k <;> first | rfl | exact absurd hk Bool.false_ne_true
    refine ⟨?_, traced_entry hpair⟩
    cases k with
    | object =>
      intro e he
      obtain ⟨c, hc, he⟩ := exists_of_memberOffences he
      exact .inr ⟨rfl, c, hc, (ih c hc).entry e he⟩
    | array =>
      intro e he
      obtain ⟨c, hc, h | he⟩ := exists_of_itemOffences he
      · exact .inr ⟨rfl, c, hc, c, self_mem_preorder c, h⟩
      · exact .inr ⟨rfl, c, hc, ((ih c hc).value e he).exists_mem⟩
    | parenthesized | expressionStatement | program => exact traced_value rfl
    | _ => exact absurd hk Bool.false_ne_true
  | @quoted k a b ns hk =>
    have hpair : isPair (.branch k a b ns) = false := by
      cases k <;> first | rfl | exact absurd hk Bool.false_ne_true
    refine ⟨fun e he => ?_, traced_entry hpair⟩
    cases k with
    | string | template => exact .of_text rfl he
    | _ => exact absurd hk Bool.false_ne_true
  | @pair a b m key value before after hkey _ _ _ _ ih =>
    refine ⟨traced_value rfl, fun e he => ?_⟩
    rw [List.cons_append, List.cons_append, entryOffences, lastOffences_concat] at he
    rcases List.mem_append.mp he with he | he
    · obtain ⟨m, hm, h⟩ := (blamed_of_keyOffences hkey he).exists_mem
      exact ⟨m, mem_preorder_of_mem_children List.mem_cons_self hm, h⟩
    · obtain ⟨m, hm, h⟩ := (ih.value e he).exists_mem
      exact ⟨m, mem_preorder_of_mem_children (List.mem_append_right _ (List.mem_singleton_self _)) hm, h⟩
  | unary _ hoperand => exact ⟨fun e he => .inl (offends_of_signOffences hoperand he), traced_entry rfl⟩

/-! ### The text in parentheses -/

theorem byteLength_enclosed (text : String) :
    byteLength (enclosed text) = byteLength text.toList + 3 := by
  rw [enclosed, byteLength_append, byteLength_cons]
  show 1 + byteLength text.toList + 2 = _
  omega

/-- Only the last parenthesis closes behind the text. -/
theorem offset_le_of_occupied {text : String} {m : Mark (enclosed text)} (h : Occupied m) :
    m.offset ≤ byteLength text.toList + 1 := by
  obtain ⟨before, c, after, hsource, hoffset, hc⟩ := h
  have hsize := c.utf8Size_pos
  have hafter : 0 < byteLength after := by
    refine byteLength_pos ?_
    rintro rfl
    have hlast := congrArg List.getLast? hsource
    rw [List.getLast?_concat] at hlast
    have hclosing : (enclosed text).getLast? = some ')' :=
      List.getLast?_append_of_ne_nil ('(' :: text.toList) (by decide : ['\n', ')'] ≠ [])
    rw [hclosing, Option.some.injEq] at hlast
    exact hc hlast.symm
  have htotal := congrArg byteLength hsource
  rw [byteLength_enclosed, byteLength_append, byteLength_cons] at htotal
  omega

/-- A place in the parentheses is a place of the text. -/
theorem boundary_of_enclosed {text : String} {o : Nat} (h : Boundary (enclosed text) o)
    (hle : o ≤ byteLength text.toList + 1) : Boundary text.toList (o - 1) := by
  obtain ⟨before, after, hsource, rfl⟩ := h
  cases before with
  | nil => exact ⟨[], text.toList, rfl, rfl⟩
  | cons c before =>
    have hcons : '(' :: (text.toList ++ ['\n', ')']) = c :: (before ++ after) := hsource
    obtain ⟨rfl, hrest⟩ := List.cons.inj hcons
    have hone : Char.utf8Size '(' = 1 := rfl
    rw [byteLength_cons, hone] at hle ⊢
    rw [Nat.add_sub_cancel_left]
    rcases List.append_eq_append_iff.mp hrest with ⟨more, rfl, -⟩ | ⟨middle, htext, -⟩
    · rw [byteLength_append] at hle
      have hmore : more = [] := by
        by_contra hne
        have hpos := byteLength_pos hne
        omega
      exact ⟨text.toList, [], by rw [List.append_nil], by rw [hmore, List.append_nil]⟩
    · exact ⟨before, middle, htext, rfl⟩

/-! ### Places of what is reported -/

/-- Each child of parentheses that is looked at is one of the entries, or a sequence that begins with
one of them. -/
theorem exists_of_asParenthesized {e : Draft source} {start : Cursor source} {n x : Node source}
    (hn : (e.asParenthesized start).nodes = [n]) (hkind : n.kind = .parenthesized)
    (hsound : n.hasFault = false) (hx : x ∈ n.children) :
    ∃ y ∈ e.nodes, x.start = y.start ∧ (x = y ∨ x.kind = .sequence ∧ y.kind.isSignificant = true) := by
  have hentry {xs : List (Node source)} (hxs : x ∈ xs) (hsub : xs ⊆ e.nodes.reverse) :
      ∃ y ∈ e.nodes, x.start = y.start ∧ (x = y ∨ x.kind = .sequence ∧ y.kind.isSignificant = true) :=
    ⟨x, List.mem_reverse.mp (hsub hxs), rfl, .inl rfl⟩
  unfold asParenthesized at hn
  simp only at hn
  split at hn
  · obtain rfl := List.head_eq_of_cons_eq hn
    have hfault : anyFault e.missing.nodes.reverse = true := by
      rw [anyFault_reverse]
      rfl
    rw [hasFault_of_anyFault hfault] at hsound
    cases hsound
  · split at hn
    · obtain rfl := List.head_eq_of_cons_eq hn
      cases hkind
    · obtain rfl := List.head_eq_of_cons_eq hn
      exact hentry hx (List.Subset.refl _)
  · rename_i y ys _ hitems
    split at hn
    · obtain rfl := List.head_eq_of_cons_eq hn
      cases hkind
    · obtain rfl := List.head_eq_of_cons_eq hn
      rcases List.mem_append.mp (List.mem_reverse.mp hx) with hx | hx
      · refine hentry (List.takeWhile_subset _ hx) fun z hz => ?_
        exact (List.dropWhile_suffix _).subset (List.mem_reverse.mp hz)
      · rcases List.mem_cons.mp hx with rfl | hx
        · have hitems : e.nodes.reverse.filter Options.isItem = y :: ys := hitems
          have hy : y ∈ e.nodes.reverse.filter Options.isItem := hitems ▸ List.mem_cons_self
          obtain ⟨hmem, hitem⟩ := List.mem_filter.mp hy
          rw [Options.isItem, Bool.and_eq_true] at hitem
          exact ⟨y, List.mem_reverse.mp hmem, rfl, .inr ⟨rfl, hitem.1⟩⟩
        · exact hentry (List.takeWhile_subset _ (List.mem_reverse.mp hx)) (List.Subset.refl _)

/-- How the one value in parentheses stands in the text. -/
structure Located (m : Node source) : Prop where
  behind : 1 ≤ m.start.offset
  occupied : Occupied m.start
  delimited : m.Delimited
  below : m.preorder ⊆ (parse source).preorder

theorem located_sole {cs : List Char} {m : Node source} (hsource : source = '(' :: cs)
    (hwhole : (parse source).hasFault = false) (hm : soleValue? (parse source) = some m) :
    Located m := by
  obtain ⟨statement, hstatement, inner, hinner, hread, hkind, hsound, -, hfirst⟩ :=
    exists_parenthesized hsource hwhole hm
  obtain ⟨hchild, hsignificant⟩ := mem_of_significant_head? hfirst
  obtain ⟨y, hy, hstart, hsame⟩ := exists_of_asParenthesized hread hkind hsound hchild
  have hy' : y.kind.isSignificant = true := by
    rcases hsame with rfl | ⟨-, hy'⟩
    · exact hsignificant
    · exact hy'
  have hnone : anyFault (bracketed (front source)).nodes = false := by
    by_contra hfault
    have hinner : anyFault ((bracketed (front source)).asParenthesized (front source).cursor).nodes =
        true := anyFault_asParenthesized (eq_true_of_ne_false hfault)
    rw [hread, anyFault, hsound] at hinner
    cases hinner
  -- The parenthesis is the first token of what is read, and no reader looks at it.
  let opened : Draft source := (fresh (front source).cursor).sign 1
  obtain ⟨added, hadded, hstanding⟩ := (standing_entries (16 * source.length + 56) opened).1
  have hnodes : (bracketed (front source)).nodes = added ++ opened.nodes := hadded
  have hyadded : y ∈ added := by
    rw [hnodes] at hy
    rcases List.mem_append.mp hy with hy | hy
    · exact hy
    · obtain rfl := List.mem_singleton.mp hy
      cases hy'
  rw [hnodes, anyFault_append, Bool.or_eq_false_iff] at hnone
  obtain ⟨hoccupied, hdelimited⟩ :=
    hstanding.resolve_left (ne_true_of_eq_false hnone.1) y hyadded hy'
  have hturn : InTurn (front source).cursor.offset (bracketed (front source)).cursor.offset
      (opened.nodes.reverse ++ added.reverse) := by
    rw [← List.reverse_append, ← hnodes]
    exact ((grows _).entries .values ((Grown.fresh _).sign 1)).inTurn
  refine ⟨?_, hstart ▸ hoccupied, ?_, fun x hx => mem_preorder_of_mem_children hstatement
    (mem_preorder_of_mem_children hinner (mem_preorder_of_mem_children hchild hx))⟩
  · obtain ⟨mid, hopened, hbehind⟩ := hturn.split
    have hopening : (fresh (front source).cursor).cursor.peek 1 = "(" := by
      rw [Cursor.peek, show (fresh (front source).cursor).cursor.rest = _ from rest_front hsource]
      rfl
    have hlo := (hbehind.of_mem (List.mem_reverse.mpr hyadded)).lo_le_start
    cases hopened.of_mem (List.mem_singleton_self _) with
    | leaf _ hhi =>
      rw [hopening] at hhi
      have hone : byteLength "(".toList = 1 := rfl
      rw [hstart]
      omega
  · rcases hsame with rfl | ⟨hsequence, -⟩
    · exact hdelimited
    · exact delimited_of_not (by rw [hsequence]; rfl)

/-- What stands below a node that ends with a token starts no later than that token. -/
theorem start_le_last {lo hi : Nat} {n c m : Node source} {k : Kind} {a : Mark source} {s : String}
    (hn : Placed lo hi n) (hlast : n.children.getLast? = some (.leaf k a s)) (hc : c ∈ n.children)
    (hm : m ∈ c.preorder) : m.start.offset ≤ a.offset := by
  obtain ⟨init, hchildren⟩ := List.getLast?_eq_some_iff.mp hlast
  have hturn := hn.children
  rw [hchildren] at hturn hc
  obtain ⟨mid, hinit, hrest⟩ := hturn.split
  rcases List.mem_append.mp hc with hc | hc
  · have hstart := ((hinit.of_mem hc).of_mem_preorder hm).start_le_hi
    exact hstart.trans (hrest.of_mem (List.mem_singleton_self _)).lo_le_start
  · obtain rfl := List.mem_singleton.mp hc
    rw [List.mem_singleton.mp hm]
    exact le_rfl

/-- What is at fault in the value stands in the text. -/
theorem Located.exists_offends {text : String} {m : Node (enclosed text)} (h : Located m)
    {e : OptionError} (he : Blamed m e) : ∃ n ∈ (parse (enclosed text)).preorder, Offends n e ∧
      1 ≤ e.offset ∧ e.offset ≤ byteLength text.toList + 1 := by
  have hplaced := (placed_parse (enclosed text)).of_mem_preorder (h.below (self_mem_preorder m))
  rcases he with he | ⟨hk, c, hc, n, hn, he⟩
  · refine ⟨m, h.below (self_mem_preorder m), he, ?_⟩
    rw [he.offset_eq]
    exact ⟨h.behind, offset_le_of_occupied h.occupied⟩
  · obtain ⟨k, a, s, hlast, ha⟩ := h.delimited hk
    have hmem := mem_preorder_of_mem_children hc hn
    refine ⟨n, h.below hmem, he, ?_⟩
    rw [he.offset_eq]
    exact ⟨h.behind.trans (hplaced.from_start.of_mem_preorder hmem).lo_le_start,
      (start_le_last hplaced hlast hc hn).trans (offset_le_of_occupied ha)⟩

/-! ### Texts -/

/-- Errors that are reported of texts that are scripts. -/
def OptionError.IsPlaced : OptionError → Prop
  | .broken _ => False
  | _ => True

/-- Errors that report a construct. -/
def OptionError.ReportsConstruct : OptionError → Prop
  | .unsupported _ _ | .invalidNumber _ _ => True
  | _ => False

/-- The error points to a place of the text, and what it reports starts there. The tree is that of
the text in parentheses, in which everything stands one byte further on. -/
structure PointsInto (text : String) (e : OptionError) : Prop where
  within : e.offset ≤ byteLength text.toList
  boundary : Boundary text.toList e.offset
  construct : e.ReportsConstruct →
    ∃ n ∈ (parse (enclosed text)).preorder, n.start.offset = 1 + e.offset ∧
      Offends n (e.move (1 + ·))

theorem PointsInto.of_enclosed {text : String} {e : OptionError}
    (hboundary : Boundary (enclosed text) e.offset) (hle : e.offset ≤ byteLength text.toList + 1)
    (hconstruct : e.ReportsConstruct → 1 ≤ e.offset ∧
      ∃ n ∈ (parse (enclosed text)).preorder, Offends n e) :
    PointsInto text (e.move (· - 1)) := by
  refine ⟨?_, ?_, fun hreports => ?_⟩
  · rw [OptionError.offset_move]
    omega
  · rw [OptionError.offset_move]
    exact boundary_of_enclosed hboundary hle
  · have hreports : e.ReportsConstruct := by cases e <;> exact hreports
    obtain ⟨hpos, n, hn, hoffends⟩ := hconstruct hreports
    have hback : (e.move (· - 1)).move (1 + ·) = e := by
      have hsum : 1 + (e.offset - 1) = e.offset := by omega
      cases e <;> simp only [OptionError.move, OptionError.offset] at hsum ⊢ <;> rw [hsum]
    refine ⟨n, hn, ?_, hback.symm ▸ hoffends⟩
    rw [OptionError.offset_move, ← hoffends.offset_eq]
    omega

theorem mapError_eq_error_iff {α : Type} {r : Read α} {f : OptionError → OptionError}
    {e : OptionError} : r.mapError f = .error e ↔ ∃ e', r = .error e' ∧ e = f e' := by
  cases r with
  | ok a => exact iff_of_false nofun fun ⟨_, h, _⟩ => nomatch h
  | error e' =>
    constructor
    · rintro ⟨⟩
      exact ⟨e', rfl, rfl⟩
    · rintro ⟨e'', h, rfl⟩
      cases h
      rfl

/-- More than one statement is reported where the second one starts, and anything else that is no
value in parentheses at the start. -/
theorem pointsInto_trailing {text : String} (hwhole : (parse (enclosed text)).hasFault = false) :
    PointsInto text (.trailingText
      ((((parse (enclosed text)).significant[1]?.map (·.start.offset)).getD 0) - 1)) := by
  have hplace : ∃ o, ((parse (enclosed text)).significant[1]?.map (·.start.offset)).getD 0 = o ∧
      Boundary (enclosed text) o ∧ o ≤ byteLength text.toList + 1 := by
    cases hsecond : (parse (enclosed text)).significant[1]? with
    | none => exact ⟨0, rfl, ⟨[], enclosed text, rfl, rfl⟩, Nat.zero_le _⟩
    | some n =>
      obtain ⟨hn, hsignificant⟩ := List.mem_filter.mp (List.mem_of_getElem? hsecond)
      have hoccupied := (standing_parse hwhole n hn hsignificant).1
      exact ⟨n.start.offset, rfl, n.start.boundary, offset_le_of_occupied hoccupied⟩
  obtain ⟨o, ho, hboundary, hle⟩ := hplace
  rw [ho]
  exact .of_enclosed (e := .trailingText o) hboundary hle nofun

theorem pointsInto_of_parseLiteral {text : String} {e : OptionError}
    (h : parseLiteral text = .error e) (he : e.IsPlaced) : PointsInto text e := by
  unfold parseLiteral at h
  obtain ⟨e', hread, rfl⟩ := mapError_eq_error_iff.mp h
  unfold enclosedValue at hread
  split at hread
  · cases hread
    exact he.elim
  · rename_i hnone
    have hwhole : (parse (enclosed text)).hasFault = false := by
      rw [hasFault_iff_firstFault?, hnone]
      rfl
    split at hread
    · rename_i inner hinner
      have hshaped := shaped_soleValue (shaped_parse hnone) rfl hinner
      have hmem : e' ∈ offences inner := List.mem_of_head? ((settles_valueOf inner).error_iff.mp hread)
      obtain ⟨n, hn, hoffends, hpos, hle⟩ :=
        (located_sole rfl hwhole hinner).exists_offends ((traced_of_shaped hshaped).value e' hmem)
      refine .of_enclosed ?_ hle fun _ => ⟨hpos, n, hn, hoffends⟩
      rw [hoffends.offset_eq]
      exact n.start.boundary
    · cases hread
      exact pointsInto_trailing hwhole

theorem pointsInto_of_parseObject {text : String} {e : OptionError}
    (h : parseObject text = .error e) (he : e.IsPlaced) : PointsInto text e := by
  unfold parseObject at h
  cases hvalue : parseLiteral text with
  | error e' =>
    rw [hvalue] at h
    cases h
    exact pointsInto_of_parseLiteral hvalue he
  | ok v =>
    rw [hvalue] at h
    have hlead : e = .notAnObject v.shape
        (byteLength text.toList - byteLength (trimLeft text.toList)) := by
      cases v <;> cases h <;> rfl
    obtain ⟨lead, htext⟩ := List.dropWhile_suffix isBlankChar (l := text.toList)
    have htext : text.toList = lead ++ trimLeft text.toList := htext.symm
    have hoffset : byteLength text.toList - byteLength (trimLeft text.toList) = byteLength lead := by
      have hlength := congrArg byteLength htext
      rw [byteLength_append] at hlength
      omega
    have hboundary : Boundary text.toList e.offset := ⟨lead, _, htext, by rw [hlead]; exact hoffset⟩
    exact ⟨hboundary.le, hboundary, by rw [hlead]; exact nofun⟩

/-! ### Options in a script -/

/-- One of the two markers that are found in the script has the argument. -/
def IsArgumentOf (script : String) (a : MarkerArgument) : Prop :=
  ∃ names e, (extract names script).result = .ok (some e) ∧
    (e.app.argument = some a ∨ ∃ react, e.react = some react ∧ react.argument = some a)

theorem exists_of_callSite {start : Nat} {ns : List (Node source)} {o : Nat} {a : MarkerArgument}
    (h : callSite start ns = .call o (some a)) : ∃ n ∈ preorderOf ns, a = argumentOf n := by
  have hargument := (Site.call.inj h).2
  obtain ⟨n, hn, rfl⟩ := Option.map_eq_some_iff.mp hargument
  obtain ⟨list, hlist, hn⟩ := Option.bind_eq_some_iff.mp hn
  have hmem := (List.mem_filter.mp (List.mem_of_mem_getLast? hlist)).1
  exact ⟨n, mem_preorderOf.mpr ⟨list, hmem, mem_preorder_of_mem_children
    (mem_of_significant_head? hn).1 (self_mem_preorder n)⟩, rfl⟩

mutual

theorem exists_of_mem_sitesOf {callee : String} {astray inCall : Bool} {root : Node source} {o : Nat}
    {a : MarkerArgument} (h : .call o (some a) ∈ sitesOf callee astray inCall root) :
    ∃ n ∈ root.preorder, a = argumentOf n := by
  cases root with
  | leaf k m s =>
    rw [sitesOf] at h
    split at h
    · cases List.mem_singleton.mp h
    · cases h
  | branch k start stop ns =>
    have hbelow {ns : List (Node source)} (hn : ∃ n ∈ preorderOf ns, a = argumentOf n) :
        ∃ n ∈ (Node.branch k start stop ns).preorder, a = argumentOf n := by
      obtain ⟨n, hn, ha⟩ := hn
      exact ⟨n, List.mem_cons_of_mem _ hn, ha⟩
    rw [sitesOf] at h
    split at h
    · rcases List.mem_cons.mp h with h | h
      · split at h
        · cases h
        · exact hbelow (exists_of_callSite h.symm)
      · exact hbelow (exists_of_mem_sitesOfAll h)
    · exact hbelow (exists_of_mem_sitesOfAll h)
termination_by sizeOf root

theorem exists_of_mem_sitesOfAll {callee : String} {astray inCall : Bool} {ns : List (Node source)}
    {o : Nat} {a : MarkerArgument} (h : .call o (some a) ∈ sitesOfAll callee astray inCall ns) :
    ∃ n ∈ preorderOf ns, a = argumentOf n := by
  cases ns with
  | nil => cases h
  | cons n ns =>
    rw [sitesOfAll] at h
    rw [preorderOf]
    rcases List.mem_append.mp h with h | h
    · obtain ⟨m, hm, ha⟩ := exists_of_mem_sitesOf h
      exact ⟨m, List.mem_append_left _ hm, ha⟩
    · obtain ⟨m, hm, ha⟩ := exists_of_mem_sitesOfAll h
      exact ⟨m, List.mem_append_right _ hm, ha⟩
termination_by sizeOf ns

end

theorem exists_of_markerIn {root : Node source} {callee : String} {call : MarkerCall}
    {a : MarkerArgument} (h : (markerIn root callee).result = .ok (some call))
    (ha : call.argument = some a) : ∃ n ∈ root.preorder, a = argumentOf n := by
  unfold markerIn at h
  simp only at h
  split at h
  · cases h
  · cases h
  · rename_i o argument others hsites
    have hcall : call.argument = argument := by
      split at h
      · obtain ⟨-, -, h⟩ := Logged.result_bind_eq_ok.mp h
        cases h
        rfl
      · cases h
        rfl
    rw [hcall] at ha
    subst ha
    exact exists_of_mem_sitesOf (hsites.symm ▸ List.mem_cons_self)

theorem markerIn_of_extract {names : MarkerNames} {script : String} {e : Extraction}
    (h : (extract names script).result = .ok (some e)) :
    (markerIn (parse script.toList) names.primary).result = .ok (some e.app) ∧
      (markerIn (parse script.toList) names.secondary).result = .ok e.react := by
  unfold extract at h
  generalize parse script.toList = root at h ⊢
  simp only at h
  split at h
  case' isTrue => replace h := (Logged.result_bind_eq_ok.mp h).choose_spec.2
  all_goals
    obtain ⟨app?, happ, hread⟩ := Logged.result_bind_eq_ok.mp h
    cases app? with
    | none =>
      obtain ⟨-, -, hnone⟩ := Logged.result_bind_eq_ok.mp hread
      cases hnone
    | some app =>
      obtain ⟨react, hreact, hread⟩ := Logged.result_bind_eq_ok.mp hread
      cases hread
      exact ⟨happ, hreact⟩

/-- The argument is written in the script at its offset. -/
theorem IsArgumentOf.written {script : String} {a : MarkerArgument} (h : IsArgumentOf script a) :
    ∃ before after, script.toList = before ++ (a.text.toList ++ after) ∧
      a.offset = byteLength before := by
  obtain ⟨names, e, hextract, hargument⟩ := h
  obtain ⟨happ, hreact⟩ := markerIn_of_extract hextract
  have hnode : ∃ n ∈ (parse script.toList).preorder, a = argumentOf n := by
    rcases hargument with ha | ⟨call, hcall, ha⟩
    · exact exists_of_markerIn happ ha
    · exact exists_of_markerIn (hcall ▸ hreact) ha
  obtain ⟨n, hn, rfl⟩ := hnode
  exact ((placed_parse script.toList).of_mem_preorder hn).writtenAt_span

/-- The error is the one of the argument alone, moved to where that place of the argument stands in
the script. -/
structure PointsWithin (script : String) (a : MarkerArgument) (e : OptionError) : Prop where
  moved : ∃ e', parseObject a.text = .error e' ∧ PointsInto a.text e' ∧ e = e'.move (a.offset + ·)
  within : a.offset ≤ e.offset ∧ e.offset ≤ a.offset + byteLength a.text.toList
  place : ∃ before lead rest after, script.toList = before ++ (lead ++ rest ++ after) ∧
    a.text.toList = lead ++ rest ∧ a.offset = byteLength before ∧
    e.offset = byteLength before + byteLength lead

theorem parse_eq_error_iff {a : MarkerArgument} {e : OptionError} : a.parse = .error e ↔
    ∃ e', parseObject a.text = .error e' ∧ e = e'.move (a.offset + ·) :=
  mapError_eq_error_iff

theorem IsArgumentOf.pointsWithin {script : String} {a : MarkerArgument} {e : OptionError}
    (h : IsArgumentOf script a) (he : a.parse = .error e) (hplaced : e.IsPlaced) :
    PointsWithin script a e := by
  obtain ⟨e', hparse, rfl⟩ := parse_eq_error_iff.mp he
  obtain ⟨before, after, hscript, hoffset⟩ := h.written
  have hinto : PointsInto a.text e' :=
    pointsInto_of_parseObject hparse (by cases e' <;> exact hplaced)
  obtain ⟨lead, rest, htext, hlead⟩ := hinto.boundary
  have hmoved := e'.offset_move (a.offset + ·)
  have hwithin := hinto.within
  refine ⟨⟨e', hparse, hinto, rfl⟩, ⟨by omega, by omega⟩, before, lead, rest, after, ?_, htext,
    hoffset, ?_⟩
  · rw [← htext]
    exact hscript
  · rw [hmoved, hoffset, hlead]

/-- Errors point into the text that is read, to where the construct starts that they report; and
those of the options of a marker point into the argument as it stands in the script. -/
theorem errors_point :
    (∀ text e, parseLiteral text = .error e → e.IsPlaced → PointsInto text e) ∧
    (∀ text e, parseObject text = .error e → e.IsPlaced → PointsInto text e) ∧
    (∀ (a : MarkerArgument) e, a.parse = .error e ↔
      ∃ e', parseObject a.text = .error e' ∧ e = e'.move (a.offset + ·)) ∧
    ∀ script a, IsArgumentOf script a → ∀ e, a.parse = .error e → e.IsPlaced →
      PointsWithin script a e :=
  ⟨fun _ _ => pointsInto_of_parseLiteral, fun _ _ => pointsInto_of_parseObject,
    fun _ _ => parse_eq_error_iff, fun _ _ h _ => h.pointsWithin⟩

/-- Whether reading fails with the error. -/
def failsWith {α : Type} (r : Read α) (e : OptionError) : Bool :=
  match r with
  | .ok _ => false
  | .error e' => e' = e

theorem eq_error_of_failsWith {α : Type} {r : Read α} {e : OptionError}
    (h : failsWith r e = true) : r = .error e := by
  cases r with
  | ok => cases h
  | error e' => rw [of_decide_eq_true h]

theorem errors_point_multibyte :
    PointsInto "[\x22é\x22, -1e999]" (.invalidNumber "-1e999" 7) ∧
    PointsInto "  [\x22é\x22]" (.notAnObject .array 2) ∧
    PointsWithin "f(\x22é\x22); withNx(\x7ba: b\x7d)" ⟨"\x7ba: b\x7d", 16⟩ (.unsupported .identifier 20) := by
  have hargument : IsArgumentOf "f(\x22é\x22); withNx(\x7ba: b\x7d)" ⟨"\x7ba: b\x7d", 16⟩ :=
    ⟨.standard, ⟨⟨1, some ⟨"\x7ba: b\x7d", 16⟩⟩, none⟩, by decide +kernel, .inl rfl⟩
  refine ⟨errors_point.1 _ _ (eq_error_of_failsWith ?_) trivial,
    errors_point.2.1 _ _ (eq_error_of_failsWith ?_) trivial,
    errors_point.2.2.2 _ _ hargument _ (eq_error_of_failsWith ?_) trivial⟩
  all_goals decide +kernel

end Workyard.Options
