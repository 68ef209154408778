import Workyard.Proofs.Options.Forms
import Workyard.Proofs.Options.Quoted

/-!
# What a value is read from

Of all that the grammar reads, a few things can have a value. Each of them begins in its own way, and
whatever else is read is a node of another kind.
-/

namespace Workyard.Options

set_option autoImplicit false

open Script Script.Node Script.Draft

variable {source : List Char} {d e : Draft source} {fuel : Nat} {n : Node source}
  {ns : List (Node source)} {c : Char} {cs rest : List Char} {l : Listing}

/-! ### Nodes that denote a value -/

section Denoting

variable {v : Json} {vs : List Json} {es : List (String × Json)} {awaiting : Bool}

theorem Names.isPlain {key : Node source} {k : String} (h : Names key k) : key.kind.isPlain = true := by
  cases h <;> rfl

theorem Denotes.isPlain (h : Denotes Kind.isLayout n v) : n.kind.isPlain = true := by
  cases h with
  | @text k _ _ _ hk => cases k <;> first | rfl | cases hk
  | _ => rfl

theorem Pair.isPlain {e : String × Json} (h : Pair Kind.isLayout n e) : n.kind.isPlain = true := by
  cases h
  rfl

theorem Items.ordinary (h : Items Kind.isLayout awaiting ns vs) : Ordinary ns := by
  induction ns generalizing awaiting vs with
  | nil => exact List.forall_mem_nil _
  | cons n ns ih =>
    cases h with
    | comment h => exact List.forall_mem_cons.mpr ⟨rfl, ih h⟩
    | bracket _ h => exact List.forall_mem_cons.mpr ⟨rfl, ih h⟩
    | comma h => exact List.forall_mem_cons.mpr ⟨rfl, ih h⟩
    | item hn h => exact List.forall_mem_cons.mpr ⟨hn.isPlain, ih h⟩

theorem Pairs.ordinary (h : Pairs Kind.isLayout ns es) : Ordinary ns := by
  induction ns generalizing es with
  | nil => exact List.forall_mem_nil _
  | cons n ns ih =>
    cases h with
    | comment h => exact List.forall_mem_cons.mpr ⟨rfl, ih h⟩
    | punctuation h => exact List.forall_mem_cons.mpr ⟨rfl, ih h⟩
    | pair hn h => exact List.forall_mem_cons.mpr ⟨hn.isPlain, ih h⟩

theorem anyFault_of_leaves {kinds : Kind → Bool} (hkinds : ∀ k, kinds k = true → k.isFault = false)
    (h : ∀ n ∈ ns, n.IsLeafOf kinds) : anyFault ns = false := by
  induction ns with
  | nil => rfl
  | cons n ns ih =>
    rw [List.forall_mem_cons] at h
    obtain ⟨k, m, s, rfl, hk⟩ := h.1
    rw [anyFault, hasFault, hkinds k hk, ih h.2]
    rfl

theorem isFault_of_isLayout (k : Kind) (hk : k.isLayout = true) : k.isFault = false := by
  cases k <;> first | rfl | cases hk

theorem isFault_of_isQuotedPart (k : Kind) (hk : k.isQuotedPart = true) : k.isFault = false := by
  cases k <;> first | rfl | cases hk

theorem Names.hasFault {key : Node source} {k : String} (h : Names key k) : key.hasFault = false := by
  cases h with
  | name => rfl
  | string h =>
    rw [Node.hasFault, anyFault_of_leaves isFault_of_isQuotedPart h]
    rfl
  | number => rfl

mutual

/-- What denotes a value has no fault. -/
theorem hasFault_of_denotes {n : Node source} {v : Json} (h : Denotes Kind.isLayout n v) :
    n.hasFault = false := by
  cases h with
  | signed _ hbetween _ =>
    rw [hasFault, List.cons_append, anyFault, anyFault_append,
      anyFault_of_leaves isFault_of_isLayout hbetween]
    rfl
  | @text k _ _ _ hk h =>
    have hfault : k.isFault = false := by cases k <;> first | rfl | cases hk
    rw [hasFault, hfault, anyFault_of_leaves isFault_of_isQuotedPart h]
    rfl
  | array h =>
    rw [hasFault, anyFault_of_items h]
    rfl
  | object h =>
    rw [hasFault, anyFault_of_pairs h]
    rfl
  | _ => rfl
termination_by sizeOf n

theorem anyFault_of_items {awaiting : Bool} {ns : List (Node source)} {vs : List Json}
    (h : Items Kind.isLayout awaiting ns vs) : anyFault ns = false := by
  cases h with
  | nil => rfl
  | comment h => exact (anyFault_of_items h :)
  | bracket _ h => exact (anyFault_of_items h :)
  | comma h => exact (anyFault_of_items h :)
  | item hn h =>
    rw [anyFault, hasFault_of_denotes hn, anyFault_of_items h]
    rfl
termination_by sizeOf ns

theorem anyFault_of_pairs {ns : List (Node source)} {es : List (String × Json)}
    (h : Pairs Kind.isLayout ns es) : anyFault ns = false := by
  cases h with
  | nil => rfl
  | comment h => exact (anyFault_of_pairs h :)
  | punctuation h => exact (anyFault_of_pairs h :)
  | pair hn h =>
    rw [anyFault, hasFault_of_pair hn, anyFault_of_pairs h]
    rfl
termination_by sizeOf ns

theorem hasFault_of_pair {n : Node source} {e : String × Json} (h : Pair Kind.isLayout n e) :
    n.hasFault = false := by
  cases h with
  | intro hkey hbefore hafter hvalue =>
    rw [hasFault, anyFault_append, List.cons_append, anyFault, anyFault_append, anyFault,
      hkey.hasFault, anyFault_of_leaves isFault_of_isLayout hbefore,
      anyFault_of_leaves isFault_of_isLayout hafter, anyFault, hasFault_of_denotes hvalue]
    rfl
termination_by sizeOf n
decreasing_by exact sizeOf_last_lt _ _ _ _ _

end

end Denoting

/-! ### Primaries -/

/-- The words that have a value. -/
def valueWords : List (String × Kind) :=
  [("true", .trueWord), ("false", .falseWord), ("null", .nullWord)]

/-- The primaries that may have a value. -/
inductive ReadsPrimary (fuel : Nat) (d : Draft source) : Draft source → Prop
  | number (hnumber : Lexeme.number d.rest ≠ 0) : ReadsPrimary fuel d d.number
  | word {w kind} (hw : (w, kind) ∈ valueWords) (hword : d.word = w) :
      ReadsPrimary fuel d (d.wordToken kind)
  | quoted {q : Quote} {t : List Char} (hd : d.rest = q.char :: t) : ReadsPrimary fuel d (q.read fuel d)
  | array {t : List Char} (hd : d.rest = '[' :: t) :
      ReadsPrimary fuel d (d.enclose .array fun b => entries fuel .items (b.sign 1))
  | object {t : List Char} (hd : d.rest = '\x7b' :: t) :
      ReadsPrimary fuel d (d.enclose .object fun b => entries fuel .members (b.sign 1))

theorem readsPrimary_of_worded {k : Nat} (h : Ordinary (worded k d).nodes) :
    ReadsPrimary fuel d (worded k d) := by
  cases k with
  | zero => exact absurd h (not_ordinary_missing d)
  | succ k =>
    rw [worded] at h ⊢
    generalize hw : d.word = w at h ⊢
    split at h
    · exact .word (by decide) hw
    · exact .word (by decide) hw
    · exact .word (by decide) hw
    · exact absurd h (not_ordinary_token rfl d)
    · exact absurd h (not_ordinary_token rfl d)
    · exact absurd h (not_ordinary_token rfl d)
    · exact absurd h not_ordinary_functionFrom
    · exact absurd h (not_ordinary_append_close rfl)
    · exact absurd h not_ordinary_newFrom
    · simp only at h
      split at h
      · exact absurd h (not_ordinary_token rfl d)
      · exact absurd h (not_ordinary_token rfl d.missing)
    · simp only at h
      split at h
      · exact absurd h not_ordinary_functionFrom
      split at h
      · split at h <;> exact absurd h (not_ordinary_append_close rfl)
      split at h
      · exact absurd h (not_ordinary_append_close rfl)
      · exact absurd h not_ordinary_named
    · exact absurd h not_ordinary_named

/-- Every other primary is a node of another kind. -/
theorem readsPrimary_of_primary (h : Ordinary (primary (fuel + 1) d).nodes) :
    ReadsPrimary fuel d (primary (fuel + 1) d) := by
  cases hcs : d.rest with
  | nil =>
    simp only [primary, hcs] at h
    exact absurd h not_ordinary_astray
  | cons c cs =>
    by_cases hc : c ∈ primarySigns
    · simp only [primarySigns, List.mem_cons, List.not_mem_nil, or_false] at hc
      rcases hc with rfl | rfl | rfl | rfl | rfl | rfl | rfl | rfl | rfl | rfl
      all_goals simp only [primary, hcs] at h ⊢
      · exact absurd h not_ordinary_parenthesized
      · exact .array hcs
      · exact .object hcs
      · exact .quoted (q := .double) hcs
      · exact .quoted (q := .single) hcs
      · exact .quoted (q := .backtick) hcs
      · exact absurd h not_ordinary_element
      · split at h <;> exact absurd h (not_ordinary_token rfl d)
      · split at h
        · exact absurd h not_ordinary_astray
        · split at h <;> exact absurd h (not_ordinary_token rfl d)
      · exact absurd h (not_ordinary_append_close rfl)
    · rw [primary_of_other hcs hc] at h ⊢
      split at h
      · rename_i hnumber
        rw [if_pos hnumber]
        exact .number (bne_iff_ne.mp hnumber)
      rename_i hnumber
      rw [if_neg hnumber]
      split at h
      · rename_i hword
        rw [if_pos hword]
        exact readsPrimary_of_worded h
      · exact absurd h not_ordinary_astray

/-! ### Operands and expressions -/

/-- The operands that may have a value, and those under a sign or a word. -/
inductive ReadsOperand (fuel : Nat) (d : Draft source) : Draft source → Prop
  | primary {k : Nat} {e : Draft source} (hk : k < fuel) (h : ReadsPrimary k (fresh d.cursor) e) :
      ReadsOperand fuel d (d.append e)
  | sign {c : Char} {t : List Char} (hd : d.rest = c :: t) (ht : c = '+' ∨ c = '-' → t.head? ≠ some c) :
      ReadsOperand fuel d (d.enclose .unary fun b => operand fuel (b.sign 1).space)
  | word (hword : d.word ∈ ["typeof", "void", "delete"]) :
      ReadsOperand fuel d (d.enclose .unary fun b => operand fuel (b.wordToken .punctuation).space)

theorem readsOperand_of_postfixed (h : Ordinary (postfixed fuel d).nodes) :
    ReadsOperand fuel d (postfixed fuel d) := by
  cases fuel with
  | zero => exact absurd h (not_ordinary_missing d)
  | succ fuel =>
    have heq := postfixed_of_open h.opens
    rw [heq] at h ⊢
    have hprimary := (ordinary_append_iff.mp h).1
    cases fuel with
    | zero => exact absurd hprimary (not_ordinary_missing _)
    | succ k => exact .primary (by omega) (readsPrimary_of_primary hprimary)

theorem readsOperand_of_operand (h : Ordinary (operand (fuel + 1) d).nodes) :
    ReadsOperand fuel d (operand (fuel + 1) d) := by
  rw [operand] at h ⊢
  split at h
  · exact absurd h (not_ordinary_append_close rfl)
  rename_i htwice
  rw [if_neg htwice]
  split at h
  · rename_i honce
    rw [if_pos honce]
    obtain ⟨c, -, hhead⟩ := List.any_eq_true.mp honce
    obtain ⟨t, ht⟩ := List.head?_eq_some_iff.mp (beq_iff_eq.mp hhead)
    refine .sign ht ?_
    rintro hc hnext
    obtain ⟨t, rfl⟩ := List.head?_eq_some_iff.mp hnext
    rcases hc with rfl | rfl
    · exact htwice (by simp [beginsWith, Lexeme.startsWith, List.isPrefixOf, ht])
    · exact htwice (by simp [beginsWith, Lexeme.startsWith, List.isPrefixOf, ht])
  rename_i honce
  rw [if_neg honce]
  generalize hw : d.word = w at h ⊢
  split at h
  · exact .word (by rw [hw]; decide)
  · exact .word (by rw [hw]; decide)
  · exact .word (by rw [hw]; decide)
  · exact absurd h (not_ordinary_append_close rfl)
  · exact absurd h (not_ordinary_append_close rfl)
  · exact readsOperand_of_postfixed h

/-- Only an expression that is one operand may have a value. -/
theorem exists_readsOperand (h : Ordinary (expression fuel d).nodes) :
    ∃ k e, k + 2 = fuel ∧ expression fuel d = d.append e ∧ ReadsOperand k (fresh d.cursor) e := by
  cases fuel with
  | zero => exact absurd h (not_ordinary_missing d)
  | succ fuel =>
    have heq := expression_of_open h.opens
    rw [heq] at h ⊢
    have hoperand := (ordinary_append_iff.mp h).1
    cases fuel with
    | zero => exact absurd hoperand (not_ordinary_missing _)
    | succ k => exact ⟨k, _, rfl, rfl, readsOperand_of_operand hoperand⟩

/-! ### What stands for itself -/

theorem ReadsPrimary.isSignificant (h : ReadsPrimary fuel d e) (he : Leads d e [n] rest)
    (hn : n.kind.isPlain = true) : n.kind.isSignificant = true := by
  cases h with
  | number =>
    obtain rfl := he.eq_node rfl
    rfl
  | @word w kind hw =>
    obtain rfl := he.eq_node rfl
    simp only [valueWords, List.mem_cons, List.not_mem_nil, or_false, Prod.mk.injEq] at hw
    rcases hw with ⟨-, rfl⟩ | ⟨-, rfl⟩ | ⟨-, rfl⟩ <;> rfl
  | @quoted q _ hd =>
    obtain ⟨-, -, -, a, b, rfl⟩ := exists_tail he fun hk => by
      rw [hk] at hn
      cases hn
    cases q <;> rfl
  | array =>
    obtain ⟨a, b, ns, rfl, -⟩ := he.of_enclose
    rfl
  | object =>
    obtain ⟨a, b, ns, rfl, -⟩ := he.of_enclose
    rfl

theorem ReadsOperand.isSignificant (h : ReadsOperand fuel d e) (he : Leads d e [n] rest)
    (hn : n.kind.isPlain = true) : n.kind.isSignificant = true := by
  cases h with
  | primary _ h => exact h.isSignificant he.of_append hn
  | sign =>
    obtain ⟨a, b, ns, rfl, -⟩ := he.of_enclose
    rfl
  | word =>
    obtain ⟨a, b, ns, rfl, -⟩ := he.of_enclose
    rfl

/-! ### Lists -/

/-- How a list goes on from an entry, or from its end. -/
theorem entries_cases (h : Ordinary (entries fuel l d).nodes) :
    ∃ k c t, fuel = k + 1 ∧ d.space.rest = c :: t ∧
      (c = l.closing ∧ entries fuel l d = d.space.sign 1 ∨
        c = ',' ∧ entries fuel l d = entries k l (d.space.sign 1) ∨
        entries fuel l d = entriesAfter k l (entry k l d.space)) := by
  cases fuel with
  | zero => exact absurd h (not_ordinary_missing d)
  | succ k =>
    rw [entries] at h ⊢
    cases hd : d.space.rest with
    | nil =>
      rw [hd] at h
      exact absurd h (not_ordinary_missing d)
    | cons c t =>
      simp only [hd] at h ⊢
      refine ⟨k, c, t, rfl, rfl, ?_⟩
      split
      · rename_i hclosing
        exact .inl ⟨beq_iff_eq.mp hclosing, rfl⟩
      rename_i hclosing
      rw [if_neg hclosing] at h
      split
      · rename_i hcomma
        exact .inr (.inl ⟨beq_iff_eq.mp hcomma, rfl⟩)
      rename_i hcomma
      rw [if_neg hcomma] at h
      split at h
      · exact absurd h (not_ordinary_missing d)
      · rename_i hstop
        rw [if_neg hstop]
        exact .inr (.inr rfl)

/-- How a list goes on behind an entry. -/
theorem entriesAfter_cases (h : Ordinary (entriesAfter fuel l d).nodes) :
    ∃ k c t, fuel = k + 1 ∧ d.gap.rest = c :: t ∧
      (c = l.closing ∧ entriesAfter fuel l d = d.gap.sign 1 ∨
        c = ',' ∧ entriesAfter fuel l d = entries k l (d.gap.sign 1)) := by
  cases fuel with
  | zero => exact absurd h (not_ordinary_missing d)
  | succ k =>
    rw [entriesAfter] at h ⊢
    cases hd : d.gap.rest with
    | nil =>
      rw [hd] at h
      exact absurd h (not_ordinary_missing d)
    | cons c t =>
      simp only [hd] at h ⊢
      refine ⟨k, c, t, rfl, rfl, ?_⟩
      split
      · rename_i hclosing
        exact .inl ⟨beq_iff_eq.mp hclosing, rfl⟩
      rename_i hclosing
      rw [if_neg hclosing] at h
      split
      · rename_i hcomma
        exact .inr ⟨beq_iff_eq.mp hcomma, rfl⟩
      rename_i hcomma
      rw [if_neg hcomma] at h
      split at h
      · exact absurd h (not_ordinary_missing d)
      · exact absurd (((reads k).entriesAfter l _).ordinary h) (not_ordinary_append_close rfl)

theorem exists_entryReader (h : Ordinary (entry fuel l d).nodes) :
    ∃ k, fuel = k + 1 ∧ entry fuel l d = entryReader l k d := by
  cases fuel with
  | zero => exact absurd h (not_ordinary_missing d)
  | succ k =>
    rw [entry.eq_def] at h ⊢
    simp only at h ⊢
    split at h
    · exact absurd h (not_ordinary_append_close rfl)
    · rename_i hdots
      rw [if_neg hdots]
      exact ⟨k, rfl, by cases l <;> rfl⟩

/-! ### Members -/

/-- The keys that may have a name. -/
inductive ReadsKey (fuel : Nat) (d : Draft source) : Draft source → Prop
  | number (hnumber : Lexeme.number d.rest ≠ 0) : ReadsKey fuel d d.number
  | word (hword : Lexeme.word d.rest ≠ 0) : ReadsKey fuel d (d.wordToken .propertyName)
  | quoted {q : Quote} {t : List Char} (hq : q ≠ .backtick) (hd : d.rest = q.char :: t) :
      ReadsKey fuel d (q.read fuel d)

theorem readsKey_of_propertyName (h : Ordinary (propertyName fuel d).nodes) :
    ReadsKey fuel d (propertyName fuel d) := by
  cases fuel with
  | zero => exact absurd h (not_ordinary_missing d)
  | succ k =>
    cases hcs : d.rest with
    | nil =>
      simp only [propertyName, hcs] at h
      exact absurd h (not_ordinary_missing d)
    | cons c t =>
      by_cases hc : c ∈ ['\x22', '\x27', '[', '#']
      · simp only [List.mem_cons, List.not_mem_nil, or_false] at hc
        rcases hc with rfl | rfl | rfl | rfl
        all_goals simp only [propertyName, hcs] at h ⊢
        · exact .quoted (q := .double) (by decide) hcs
        · exact .quoted (q := .single) (by decide) hcs
        · exact absurd h (not_ordinary_append_close rfl)
        · split at h
          · exact absurd h (not_ordinary_missing d)
          · exact absurd h (not_ordinary_token rfl d)
      · rw [propertyName_of_other hcs hc] at h ⊢
        split at h
        · rename_i hnumber
          rw [if_pos hnumber]
          exact .number (bne_iff_ne.mp hnumber)
        rename_i hnumber
        rw [if_neg hnumber]
        split at h
        · rename_i hword
          rw [if_pos hword]
          exact .word (bne_iff_ne.mp hword)
        · exact absurd h (not_ordinary_missing d)

theorem exists_memberTail (h : Ordinary (member fuel d).nodes) :
    ∃ k, fuel = k + 1 ∧ member fuel d =
      d.append (memberTail k d.cursor (propertyName k (fresh d.cursor))) := by
  cases fuel with
  | zero => exact absurd h (not_ordinary_missing d)
  | succ k =>
    refine ⟨k, rfl, ?_⟩
    rw [member] at h ⊢
    simp only at h ⊢
    split at h
    · exact absurd h (not_ordinary_append_close rfl)
    rename_i hstar
    rw [if_neg hstar]
    split at h
    · exact absurd h (not_ordinary_append_close rfl)
    rename_i hmodifier
    rw [if_neg hmodifier]
    split at h
    · rename_i hproperty
      rw [if_pos hproperty]
    · exact absurd h (not_ordinary_append_close rfl)

/-- A pair has a colon. -/
theorem exists_colon {start : Text.Cursor source} (h : Ordinary (memberTail fuel start e).nodes)
    (hsound : anyFault (memberTail fuel start e).nodes = false) :
    ∃ k t, fuel = k + 1 ∧ e.space.rest = ':' :: t := by
  cases fuel with
  | zero => exact absurd h (not_ordinary_missing e)
  | succ k =>
    generalize hr : memberTail (k + 1) start e = r at h hsound
    rw [memberTail] at hr
    split at hr
    · rename_i t ht
      exact ⟨k, t, rfl, ht⟩
    · exact absurd (hr ▸ h) (not_ordinary_close rfl)
    · split at hr
      · split at hr
        · exact absurd (hr ▸ h) (not_ordinary_close rfl)
        · rename_i hnodes _
          rw [← hr, retag, hnodes] at h
          exact absurd (ordinary_cons_iff.mp h).1 Bool.false_ne_true
      · have hfault : anyFault (e.missing.close .pair start).nodes = true := by
          rw [Draft.close, anyFault, hasFault, anyFault_reverse]
          rfl
        rw [← hr, hfault] at hsound
        cases hsound

/-! ### Entries -/

theorem isSignificant_of_expression (ho : Ordinary (Draft.expression fuel d).nodes)
    (h : Leads d (Draft.expression fuel d) [n] rest) : n.kind.isSignificant = true := by
  have hplain := h.isPlain ho
  obtain ⟨k, e, -, heq, hoperand⟩ := exists_readsOperand ho
  rw [heq] at h
  exact hoperand.isSignificant h.of_append hplain

theorem isSignificant_of_member (ho : Ordinary (member fuel d).nodes)
    (h : Leads d (member fuel d) [n] rest) (hn : n.hasFault = false) : n.kind.isSignificant = true := by
  obtain ⟨k, -, heq⟩ := exists_memberTail ho
  rw [heq] at ho h
  have hsound : anyFault (memberTail k d.cursor (propertyName k (fresh d.cursor))).nodes = false := by
    rw [h.of_append.nodes_eq]
    simp [fresh, anyFault, hn]
  obtain ⟨j, t, rfl, hcolon⟩ := exists_colon (ordinary_append_iff.mp ho).1 hsound
  rw [memberTail_of_colon _ hcolon] at h
  obtain rfl := h.eq_node rfl
  rfl

theorem isSignificant_of_entryReader (ho : Ordinary (entryReader l fuel d).nodes)
    (h : Leads d (entryReader l fuel d) [n] rest) (hn : n.hasFault = false) :
    n.kind.isSignificant = true := by
  cases l with
  | members => exact isSignificant_of_member ho h hn
  | items => exact isSignificant_of_expression ho h
  | values => exact isSignificant_of_expression ho h

/-- A list ends here or goes on behind a comma. -/
inductive GoesOn (l : Listing) (fuel : Nat) (s : Draft source) : List (Node source) → List Char → Prop
  | close {m after} (hs : s.rest = l.closing :: after) :
      GoesOn l fuel s [.leaf .punctuation m (String.ofList [l.closing])] after
  | comma {m ms after} {t : List Char} (hs : s.rest = ',' :: t)
      (ho : Ordinary (entries fuel l (s.sign 1)).nodes)
      (h : Leads (s.sign 1) (entries fuel l (s.sign 1)) ms after) :
      GoesOn l fuel s (.leaf .punctuation m "," :: ms) after

theorem adds_entries_all (l : Listing) (fuel : Nat) (d : Draft source) : Adds All d (entries fuel l d) :=
  (reads fuel).entries l d

/-- What is read behind an entry. -/
theorem goesOn_of_entriesAfter (ho : Ordinary (entriesAfter fuel l d).nodes)
    (h : Leads d (entriesAfter fuel l d) ns rest) :
    ∃ k x ms ns', k < fuel ∧ ns = ms ++ ns' ∧ d.rest = x ++ d.gap.rest ∧ Spacing false x ∧
      (∀ n ∈ ms, Passed false n) ∧ GoesOn l k d.gap ns' rest := by
  obtain ⟨k, c, t, rfl, hd, hgoes⟩ := entriesAfter_cases ho
  obtain ⟨x, ms, hx, hspacing, hms, hgap⟩ := exists_spacing_gap (d := d) (by rw [hd]; exact List.cons_ne_nil c t)
  have hsign := hgap.trans (leads_sign hd)
  rcases hgoes with ⟨rfl, heq⟩ | ⟨rfl, heq⟩
  · rw [heq] at h
    obtain ⟨rfl, rfl⟩ := leads_unique h hsign
    exact ⟨k, x, ms, _, Nat.lt_succ_self k, rfl, hx, hspacing, hms, .close hd⟩
  · rw [heq] at ho h
    obtain ⟨ns', hns'⟩ := exists_leads (adds_entries_all l k (d.gap.sign 1))
    obtain ⟨rfl, rfl⟩ := leads_unique h (hsign.trans hns')
    exact ⟨k, x, ms, .leaf .punctuation d.gap.cursor.mark "," :: ns', Nat.lt_succ_self k,
      List.append_assoc _ _ _, hx, hspacing, hms, .comma hd ho hns'⟩

/-- An entry is read here, and the list goes on behind it. -/
structure ReadsEntry (l : Listing) (fuel k : Nat) (s : Draft source) (n : Node source)
    (ns : List (Node source)) (after : List Char) : Prop where
  significant : n.kind.isSignificant = true
  ordinary : Ordinary (entryReader l k s).nodes
  entry : Leads s (entryReader l k s) [n] (entryReader l k s).rest
  ordinary_after : Ordinary (entriesAfter fuel l (entryReader l k s)).nodes
  after : Leads (entryReader l k s) (entriesAfter fuel l (entryReader l k s)) ns after

/-- What is read from an opening bracket or a comma on. -/
theorem goesOn_of_entries (ho : Ordinary (entries fuel l d).nodes) (h : Leads d (entries fuel l d) ns rest)
    (hsound : anyFault ns = false) :
    ∃ k x ms ns', k < fuel ∧ ns = ms ++ ns' ∧ d.rest = x ++ d.space.rest ∧
      (∀ html, (∀ n ∈ ms, n.kind = .htmlComment → html = true) → Spacing html x) ∧
      (∀ n ∈ ms, Passed true n) ∧
      (GoesOn l k d.space ns' rest ∨
        ∃ j n es, j < k ∧ ns' = n :: es ∧ ReadsEntry l k j d.space n es rest) := by
  obtain ⟨k, c, t, rfl, hd, hgoes⟩ := entries_cases ho
  obtain ⟨x, ms, hx, hspacing, hms, hspace⟩ := exists_spacing_space (d := d)
    (by rw [hd]; exact List.cons_ne_nil c t)
  have hsign := hspace.trans (leads_sign hd)
  rcases hgoes with ⟨rfl, heq⟩ | ⟨rfl, heq⟩ | heq
  · rw [heq] at h
    obtain ⟨rfl, rfl⟩ := leads_unique h hsign
    exact ⟨k, x, ms, _, Nat.lt_succ_self k, rfl, hx, hspacing, hms, .inl (.close hd)⟩
  · rw [heq] at ho h
    obtain ⟨ns', hns'⟩ := exists_leads (adds_entries_all l k (d.space.sign 1))
    obtain ⟨rfl, rfl⟩ := leads_unique h (hsign.trans hns')
    exact ⟨k, x, ms, .leaf .punctuation d.space.cursor.mark "," :: ns', Nat.lt_succ_self k,
      List.append_assoc _ _ _, hx, hspacing, hms, .inl (.comma hd ho hns')⟩
  · rw [heq] at ho h
    have hentry := ((reads k).entriesAfter l _).ordinary ho
    obtain ⟨j, rfl, hreader⟩ := exists_entryReader hentry
    have hone := (reads (j + 1)).entry l d.space
    rw [hreader] at ho h hentry hone
    obtain ⟨added, hadded⟩ := exists_leads hone
    obtain ⟨es, hes⟩ := exists_leads ((reads (j + 1)).entriesAfter l (entryReader l j d.space))
    obtain ⟨rfl, rfl⟩ := leads_unique h ((hspace.trans hadded).trans hes)
    rw [anyFault_append, anyFault_append, Bool.or_eq_false_iff, Bool.or_eq_false_iff] at hsound
    obtain ⟨n, rfl⟩ := hadded.exists_one hone hsound.1.2
    have hn : n.hasFault = false := by simpa [anyFault] using hsound.1.2
    exact ⟨j + 1, x, ms, n :: es, Nat.lt_succ_self _, by simp, hx, hspacing, hms,
      .inr ⟨j, n, es, Nat.lt_succ_self j, rfl, isSignificant_of_entryReader hentry hadded hn, hentry,
        hadded, ho, hes⟩⟩

end Workyard.Options
