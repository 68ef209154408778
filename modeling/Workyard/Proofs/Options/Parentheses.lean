import Mathlib.Data.List.TakeWhile
import Workyard.Proofs.Options.ReadBack
import Workyard.Proofs.Script.Twins

/-!
# Parentheses around one value

A script that begins with a parenthesis has a value if the parentheses go to its end and stand around
one value. Both directions are stated of the entries that are read behind the parenthesis.
-/

namespace Workyard.Options

set_option autoImplicit false

open Script Script.Node Script.Draft

variable {source : List Char}

/-! ### The tokens of a tree -/

mutual

/-- The tokens of a tree. -/
def leaves : Node source → List (Kind × String)
  | .leaf k _ s => [(k, s)]
  | .branch _ _ _ ns => leavesOf ns

def leavesOf : List (Node source) → List (Kind × String)
  | [] => []
  | n :: ns => leaves n ++ leavesOf ns

end

theorem mem_leavesOf {l : Kind × String} {ns : List (Node source)} :
    l ∈ leavesOf ns ↔ ∃ n ∈ ns, l ∈ leaves n := by
  induction ns with
  | nil => simp [leavesOf]
  | cons n ns ih => simp [leavesOf, ih]

theorem leaves_subset {k : Kind} {a b : Text.Mark source} {n : Node source} {ns : List (Node source)}
    (hn : n ∈ ns) : leaves n ⊆ leaves (.branch k a b ns) :=
  fun _ hl => mem_leavesOf.mpr ⟨n, hn, hl⟩

theorem leaves_subset_of_mem_children {n x : Node source} (h : n ∈ x.children) : leaves n ⊆ leaves x := by
  cases x with
  | leaf => cases h
  | branch => exact leaves_subset h

/-! ### The entries in parentheses -/

/-- A node that stands for an entry of its own in parentheses. -/
def isItem (n : Node source) : Bool :=
  n.kind.isSignificant && n.kind != .htmlComment

/-- What was read up to the end of the text are the entries of parentheses around one value. -/
structure Sole (e : Draft source) (m : Node source) : Prop where
  rest : e.rest = []
  sound : anyFault e.nodes = false
  items : e.nodes.reverse.filter isItem = [m]
  first : (e.nodes.reverse.filter (·.kind.isSignificant)).head? = some m
  spread : m.kind ≠ .spread
  comma : ∀ n ∈ e.nodes, n.text ≠ ","

theorem Sole.isItem {e : Draft source} {m : Node source} (h : Sole e m) : isItem m = true := by
  have hmem : m ∈ e.nodes.reverse.filter Options.isItem := by
    rw [h.items]
    exact List.mem_singleton_self m
  exact (List.mem_filter.mp hmem).2

theorem asParenthesized_of_sole {e : Draft source} {m : Node source} (h : Sole e m)
    (start : Text.Cursor source) : e.asParenthesized start = e.close .parenthesized start := by
  have hcomma : (m.kind == .spread || e.nodes.reverse.any fun n => n.text == ",") = false := by
    rw [Bool.or_eq_false_iff, beq_eq_false_iff_ne, List.any_eq_false]
    exact ⟨h.spread, fun n hn heq => h.comma n (List.mem_reverse.mp hn) (beq_iff_eq.mp heq)⟩
  have hitems : e.nodes.reverse.filter (fun n => n.kind.isSignificant && n.kind != .htmlComment) =
      [m] := h.items
  unfold asParenthesized
  simp only [hitems, hcomma, Bool.false_eq_true, if_false]

/-! ### The one value in parentheses -/

/-- What is read behind a parenthesis at the beginning of the text. -/
def bracketed (d : Draft source) : Draft source :=
  entries (16 * source.length + 56) .values ((fresh d.cursor).sign 1)

theorem shaped_bracketed {d : Draft source} (h : anyFault (bracketed d).nodes = false) :
    ∀ n ∈ (bracketed d).nodes, n.Shaped := by
  have hall : Adds All (fresh d.cursor) (bracketed d) :=
    (adds_sign 1 _).append_all ((reads _).entries .values _)
  exact hall.nodes.resolve_left (ne_true_of_eq_false h)

theorem isValue_of_valueOf {n : Node source} {v : Json} (h : valueOf n = .ok v) :
    n.kind ≠ .htmlComment ∧ n.kind ≠ .sequence ∧ n.kind ≠ .spread := by
  cases n with
  | leaf k m s => refine ⟨?_, ?_, ?_⟩ <;> rintro (rfl : k = _) <;> cases h
  | branch k a b ns => refine ⟨?_, ?_, ?_⟩ <;> rintro (rfl : k = _) <;> cases h

/-- The end of a text. -/
theorem eq_nil_of_offset {d : Draft source} (h : d.cursor.offset = Text.byteLength source) :
    d.rest = [] := by
  have hsum := offset_add_byteLength d.cursor
  have hnone : Text.byteLength d.cursor.rest = 0 := by omega
  show d.cursor.rest = []
  cases hrest : d.cursor.rest with
  | nil => rfl
  | cons c cs =>
    rw [hrest, Text.byteLength_cons] at hnone
    have hsize := c.utf8Size_pos
    omega

theorem mem_of_significant_head? {n m : Node source} (h : n.significant.head? = some m) :
    m ∈ n.children ∧ m.kind.isSignificant = true :=
  List.mem_filter.mp (List.mem_of_mem_head? h)

/-- Parentheses up to the end of the text that have a value are around one item. -/
theorem sole_of_asParenthesized {e : Draft source} {start : Text.Cursor source} {n m : Node source}
    {v : Json} (hn : (e.asParenthesized start).nodes = [n]) (hkind : n.kind = .parenthesized)
    (hsound : n.hasFault = false) (hstop : n.stop = Text.byteLength source)
    (hfirst : n.significant.head? = some m) (hvalue : valueOf m = .ok v) : Sole e m := by
  obtain ⟨hhtml, hsequence, hspread⟩ := isValue_of_valueOf hvalue
  obtain ⟨hmem, hsignificant⟩ := mem_of_significant_head? hfirst
  have hitem : Options.isItem m = true := by
    rw [Options.isItem, hsignificant, Bool.true_and, bne_iff_ne]
    exact hhtml
  unfold asParenthesized at hn
  simp only at hn
  split at hn
  · obtain rfl := List.head_eq_of_cons_eq hn
    have hfault : anyFault e.missing.nodes.reverse = true := by
      rw [anyFault_reverse]
      rfl
    rw [hasFault_of_anyFault hfault] at hsound
    cases hsound
  · rename_i x hitems
    split at hn
    · obtain rfl := List.head_eq_of_cons_eq hn
      cases hkind
    · rename_i hcomma
      obtain rfl := List.head_eq_of_cons_eq hn
      have hsame : m ∈ e.nodes.reverse.filter Options.isItem := List.mem_filter.mpr ⟨hmem, hitem⟩
      have hitems : e.nodes.reverse.filter Options.isItem = [x] := hitems
      rw [hitems, List.mem_singleton] at hsame
      subst hsame
      refine ⟨eq_nil_of_offset hstop, ?_, hitems, hfirst, hspread, fun n hn heq => hcomma ?_⟩
      · rw [← anyFault_reverse]
        rw [hasFault, Bool.or_eq_false_iff] at hsound
        exact hsound.2
      · rw [Bool.or_eq_true]
        exact .inr (List.any_eq_true.mpr ⟨n, List.mem_reverse.mpr hn, beq_iff_eq.mpr heq⟩)
  · split at hn
    · obtain rfl := List.head_eq_of_cons_eq hn
      cases hkind
    · obtain rfl := List.head_eq_of_cons_eq hn
      -- Beside the sequence there is no item.
      have hnot {xs : List (Node source)} (hxs : m ∈ xs.takeWhile fun n => !Options.isItem n) : False := by
        have himp := List.mem_takeWhile_imp hxs
        rw [hitem] at himp
        cases himp
      rcases List.mem_append.mp (List.mem_reverse.mp hmem) with hmem | hmem
      · exact (hnot hmem).elim
      · rcases List.mem_cons.mp hmem with rfl | hmem
        · exact absurd rfl hsequence
        · exact (hnot (List.mem_reverse.mp hmem)).elim

/-! ### The script around them -/

theorem hasFault_of_mem_children {n x : Node source} (h : n ∈ x.children) (hx : x.hasFault = false) :
    n.hasFault = false := by
  cases x with
  | leaf => cases h
  | branch k a b ns =>
    by_contra hn
    have hany : anyFault ns = true := anyFault_eq_true_iff.mpr ⟨n, h, eq_true_of_ne_false hn⟩
    rw [hasFault_of_anyFault hany] at hx
    cases hx

theorem of_soleValue? {root m : Node source} (h : soleValue? root = some m) :
    ∃ statement inner, root.significant = [statement] ∧ statement.significant.head? = some inner ∧
      inner.kind = .parenthesized ∧ inner.stop = Text.byteLength source ∧
      inner.significant.head? = some m := by
  unfold soleValue? at h
  split at h
  · rename_i statement hstatement
    split at h
    · split at h
      · rename_i inner ns hinner
        split at h
        · rename_i hwhole
          exact ⟨statement, inner, hstatement, by rw [hinner]; rfl, hwhole.1, hwhole.2.2, h⟩
        · cases h
      · cases h
    · cases h
  · cases h

/-- The nodes that are added at the end of a statement have no children. -/
theorem mem_layout {html : Bool} {fuel : Nat} {d : Draft source} {n : Node source}
    (h : n ∈ (d.layout html fuel).nodes) : n ∈ d.nodes ∨ n.children = [] := by
  induction fuel generalizing d with
  | zero => exact .inl h
  | succ fuel ih =>
    rw [layout_succ] at h
    split at h
    · rcases ih h with h | h
      · rcases List.mem_cons.mp h with rfl | h
        · exact .inr rfl
        · exact .inl h
      · exact .inr h
    · exact .inl h

theorem mem_semicolon {d : Draft source} {n : Node source} (h : n ∈ d.semicolon.2.nodes) :
    n ∈ d.nodes ∨ n.children = [] := by
  unfold semicolon at h
  split at h
  · rcases List.mem_cons.mp h with rfl | h
    · exact .inr rfl
    · exact mem_layout h
  · exact .inl h

/-- An expression that is one node in parentheses is read by what reads parentheses. -/
theorem parenthesized_of_expressions {d : Draft source} {cs : List Char} {n : Node source} (fuel : Nat)
    (hd : d.rest = '(' :: cs) (hkind : n.kind = .parenthesized)
    (h : (expressions (fuel + 6) (fresh d.cursor)).nodes = [n]) :
    ((entries fuel .values ((fresh d.cursor).sign 1)).asParenthesized d.cursor).nodes = [n] := by
  have hopen : Open [n] := by
    intro x hx
    rw [List.mem_singleton.mp hx, hkind]
    exact ⟨rfl, rfl⟩
  have hbare : Bare (fresh d.cursor) := bare_of_head hd (by decide) rfl
  have hexpressions : (expression (fuel + 5) (fresh d.cursor)).nodes = [n] := by
    rw [expressions_of_open (h ▸ hopen)] at h
    simpa [fresh] using h
  have hoperand : (operand (fuel + 4) (fresh d.cursor)).nodes = [n] := by
    rw [expression_of_open (hexpressions ▸ hopen)] at hexpressions
    simpa [fresh] using hexpressions
  have hpostfixed : (postfixed (fuel + 3) (fresh d.cursor)).nodes = [n] := by
    rwa [operand_of_bare hbare] at hoperand
  have hprimary : (primary (fuel + 2) (fresh d.cursor)).nodes = [n] := by
    rw [postfixed_of_open (hpostfixed ▸ hopen)] at hpostfixed
    simpa [fresh] using hpostfixed
  have hparenthesized : (parenthesized (fuel + 1) (fresh d.cursor)).nodes = [n] := by
    have hrest : (fresh d.cursor).rest = '(' :: cs := hd
    rw [primary] at hprimary
    simpa only [hrest] using hprimary
  rw [parenthesized] at hparenthesized
  simp only at hparenthesized
  split at hparenthesized
  · obtain rfl := List.head_eq_of_cons_eq hparenthesized
    cases hkind
  · simpa [fresh] using hparenthesized

/-- Where the first statement of a script begins. -/
def front (source : List Char) : Draft source :=
  (fresh (Text.Cursor.start source)).space

theorem rest_front {cs : List Char} (hsource : source = '(' :: cs) : (front source).rest = '(' :: cs := by
  have hstart : (fresh (Text.Cursor.start source)).rest = '(' :: cs := hsource
  exact (leads_space_here hstart ⟨rfl, rfl, rfl⟩).rest_eq

/-- The first statement of a script that begins with a parenthesis. -/
theorem exists_statement {cs : List Char} (hsource : source = '(' :: cs) :
    ∃ k a b, k.isSignificant = true ∧
      .branch k a b (expressions (16 * source.length + 62)
        (fresh (front source).cursor)).semicolon.2.nodes.reverse ∈ (parse source).children := by
  have hbang : (fresh (Text.Cursor.start source)).beginsWith "#!" = false := by
    rw [beginsWith, show (fresh (Text.Cursor.start source)).rest = _ from hsource]
    rfl
  have hprogram : programTail (source.length + 1) (16 * source.length + 64)
      (fresh (Text.Cursor.start source)) = programTail source.length (16 * source.length + 64)
        (statement (16 * source.length + 64) (front source)) := by
    have hrest : (fresh (Text.Cursor.start source)).space.rest = '(' :: cs := rest_front hsource
    rw [programTail]
    simp only [hrest]
    rfl
  obtain ⟨added, hadded, -⟩ := adds_programTail (16 * source.length + 64) source.length
    (statement (16 * source.length + 64) (front source))
  have hstatement : statement (16 * source.length + 62 + 2) (front source) =
      (front source).sentence .expressionStatement (expressions (16 * source.length + 62)) :=
    statement_of_parenthesis (rest_front hsource)
  rw [← hprogram, hstatement] at hadded
  have hchildren : (parse source).children = (programTail (source.length + 1) (16 * source.length + 64)
      (fresh (Text.Cursor.start source))).nodes.reverse := by
    simp only [parse, hbang, Bool.false_eq_true, if_false, children]
  rw [hchildren, hadded]
  generalize front source = s
  generalize hx : (expressions (16 * source.length + 62) (fresh s.cursor)).semicolon = x
  have hsentence : (s.sentence .expressionStatement (expressions (16 * source.length + 62))).nodes =
      .branch (if x.1 then .expressionStatement else .error) s.cursor.mark x.2.cursor.mark
        x.2.nodes.reverse :: s.nodes := by
    rw [sentence, hx]
    rfl
  rw [hsentence]
  refine ⟨if x.1 then .expressionStatement else .error, s.cursor.mark, x.2.cursor.mark, ?_, ?_⟩
  · split <;> rfl
  · exact List.mem_reverse.mpr (List.mem_append_right _ List.mem_cons_self)

/-- The parentheses around the one value of a script, with what is read behind the first one. -/
theorem exists_parenthesized {cs : List Char} {m : Node source} (hsource : source = '(' :: cs)
    (hwhole : (parse source).hasFault = false) (hm : soleValue? (parse source) = some m) :
    ∃ statement ∈ (parse source).children, ∃ inner ∈ statement.children,
      ((bracketed (front source)).asParenthesized (front source).cursor).nodes = [inner] ∧
        inner.kind = .parenthesized ∧ inner.hasFault = false ∧
        inner.stop = Text.byteLength source ∧ inner.significant.head? = some m := by
  obtain ⟨statement, inner, hroot, hstatement, hkind, hstop, hfirst⟩ := of_soleValue? hm
  obtain ⟨k, a, b, hk, hmem⟩ := exists_statement hsource
  have hadds := ((reads (16 * source.length + 62)).expressions (fresh (front source).cursor)).nodes
  have hread := parenthesized_of_expressions (16 * source.length + 56) (rest_front hsource) hkind
  generalize expressions (16 * source.length + 62) (fresh (front source).cursor) = e
    at hmem hadds hread
  have hsame : Node.branch k a b e.semicolon.2.nodes.reverse ∈ (parse source).significant :=
    List.mem_filter.mpr ⟨hmem, hk⟩
  rw [hroot, List.mem_singleton] at hsame
  subst hsame
  have hsound := hasFault_of_mem_children hmem hwhole
  obtain ⟨hinner, -⟩ := mem_of_significant_head? hstatement
  obtain ⟨hm', -⟩ := mem_of_significant_head? hfirst
  have hone : e.nodes = [inner] := by
    obtain ⟨added, hadded, -⟩ := adds_semicolon e
    have hnone : anyFault e.nodes = false := by
      rw [hasFault, anyFault_reverse, hadded, anyFault_append, Bool.or_eq_false_iff,
        Bool.or_eq_false_iff] at hsound
      exact hsound.2.2
    obtain ⟨n, hn, -⟩ := hadds.resolve_left (ne_true_of_eq_false hnone)
    rcases mem_semicolon (List.mem_reverse.mp hinner) with hinner | hinner
    · rw [hn, List.mem_singleton] at hinner
      rw [hn, hinner]
    · rw [hinner] at hm'
      cases hm'
  exact ⟨_, hmem, inner, hinner, hread hone, hkind, hasFault_of_mem_children hinner hsound, hstop,
    hfirst⟩

theorem exists_sole_of_enclosedValue {cs : List Char} {v : Json} (hsource : source = '(' :: cs)
    (h : enclosedValue (parse source) = .ok v) : ∃ m, valueOf m = .ok v ∧
      leaves m ⊆ leaves (parse source) ∧ Sole (bracketed (front source)) m := by
  unfold enclosedValue at h
  split at h
  · cases h
  rename_i hnone
  split at h
  · rename_i m hm
    have hwhole : (parse source).hasFault = false := by
      rw [hasFault_iff_firstFault?, hnone]
      rfl
    obtain ⟨statement, hmem, inner, hinner, hread, hkind, hsound, hstop, hfirst⟩ :=
      exists_parenthesized hsource hwhole hm
    refine ⟨m, h, fun l hl => ?_, sole_of_asParenthesized hread hkind hsound hstop hfirst h⟩
    exact leaves_subset_of_mem_children hmem (leaves_subset_of_mem_children hinner
      (leaves_subset_of_mem_children (mem_of_significant_head? hfirst).1 hl))
  · cases h

/-- What is in parentheses up to the end of the text is read as an expression. -/
theorem leads_of_sole {d : Draft source} {cs : List Char} {m : Node source} {fuel : Nat}
    (hd : d.rest = '(' :: cs) (h : Sole (entries fuel .values ((fresh d.cursor).sign 1)) m) :
    ∃ n, (n.kind = .parenthesized ∧ n.start = d.cursor.mark ∧ n.stop = Text.byteLength source ∧
      n.hasFault = false ∧ n.significant.head? = some m) ∧ Leads d (expression (fuel + 5) d) [n] [] := by
  have hrest : (fresh d.cursor).rest = '(' :: cs := hd
  have hprimary : primary (fuel + 2) (fresh d.cursor) = (fresh d.cursor).append
      ((entries fuel .values ((fresh d.cursor).sign 1)).close .parenthesized d.cursor) := by
    have hgap := (leads_gap_here h.rest Ends.nil.solid).rest_eq
    have harrow : ¬ (entries fuel .values ((fresh d.cursor).sign 1)).gap.beginsWith "=>" = true := by
      rw [beginsWith, hgap]
      exact Bool.false_ne_true
    rw [primary]
    simp only [hrest]
    rw [parenthesized]
    refine (if_neg harrow).trans ?_
    exact congrArg _ (asParenthesized_of_sole h d.cursor)
  generalize entries fuel .values ((fresh d.cursor).sign 1) = e at h hprimary
  have hstop : e.cursor.offset = Text.byteLength source := by
    have hsum := offset_add_byteLength e.cursor
    rw [show e.cursor.rest = [] from h.rest, Text.byteLength_nil] at hsum
    omega
  have hleads : Leads (fresh d.cursor) (primary (fuel + 2) (fresh d.cursor))
      [.branch .parenthesized d.cursor.mark e.cursor.mark e.nodes.reverse] [] := by
    rw [hprimary]
    exact ⟨rfl, h.rest⟩
  have hsound : (Node.branch .parenthesized d.cursor.mark e.cursor.mark e.nodes.reverse).hasFault =
      false := by
    rw [hasFault, anyFault_reverse, h.sound]
    rfl
  have hbare : Bare d := bare_of_head hd (by decide) rfl
  exact ⟨.branch .parenthesized d.cursor.mark e.cursor.mark e.nodes.reverse,
    ⟨rfl, rfl, hstop, hsound, h.first⟩, leads_of_primary hbare Ends.nil.settled hleads⟩

theorem enclosedValue_of_sole {cs : List Char} {P : Node source → Prop} (hsource : source = '(' :: cs)
    (h : ∀ d : Draft source, d.rest = source → ∃ m, P m ∧ Sole (bracketed d) m) :
    ∃ m, P m ∧ enclosedValue (parse source) = valueOf m := by
  obtain ⟨a, b, a', b', n, ⟨m, hm, hkind, hstart, hstop, hsound, hfirst⟩, hparse⟩ :=
    parse_of_expression (P := fun n => ∃ m, P m ∧ n.kind = .parenthesized ∧
      n.start.offset = 0 ∧ n.stop = Text.byteLength source ∧ n.hasFault = false ∧
      n.significant.head? = some m) hsource fun d hd => by
    obtain ⟨m, hm, hsole⟩ := h d hd
    obtain ⟨n, ⟨hkind, hstart, hn⟩, hleads⟩ := leads_of_sole (hd.trans hsource) hsole
    have hsum := offset_add_byteLength d.cursor
    rw [show d.cursor.rest = source from hd] at hsum
    have hfront : d.cursor.offset = 0 := by omega
    exact ⟨n, ⟨m, hm, hkind, by rw [hstart]; exact hfront, hn⟩, hleads⟩
  have hnone : (parse source).firstFault? = none := by
    have hwhole : (parse source).hasFault = false := by
      rw [hparse, hasFault, anyFault, hasFault, anyFault, anyFault, hsound]
      rfl
    rwa [hasFault_iff_firstFault?, Option.isSome_eq_false_iff, Option.isNone_iff_eq_none] at hwhole
  have hsole : soleValue? (parse source) = some m := by
    rw [hparse, soleValue?_of_statement hkind hstart hstop]
    exact hfirst
  refine ⟨m, hm, ?_⟩
  rw [enclosedValue, hnone]
  simp only [hsole]

end Workyard.Options
