import Mathlib.Data.List.Forall2
import Workyard.Proofs.Script.Leads
import Workyard.Proofs.Script.LineFeeds
import Workyard.Proofs.Script.Reading

/-!
# Reading with returns before line feeds

Two texts that differ by returns before line feeds have trees of the same shape, as far as a value can
be read from the first. Comments may end in another place, and so may what stands for itself over a
line end.
-/

namespace Workyard.Script

set_option autoImplicit false

open Node Draft

variable {source source' : List Char}

/-! ### Trees -/

/-- Nodes that a value is read from. -/
def Kind.isPlain : Kind → Bool
  | .punctuation | .comment | .htmlComment | .number | .trueWord | .falseWord | .nullWord
  | .fragment | .escape | .propertyName | .string | .template | .object | .array | .pair
  | .unary => true
  | _ => false

theorem isPlain_of_isLayout (k : Kind) (hk : k.isLayout = true) : k.isPlain = true := by
  cases k <;> first | rfl | cases hk

theorem isPlain_of_isQuotedPart (k : Kind) (hk : k.isQuotedPart = true) : k.isPlain = true := by
  cases k <;> first | rfl | cases hk

/-- A tree that a value is read from, without an escaped question mark that takes a feed. -/
inductive Node.Plain : Node source → Prop
  | leaf {k m s} (hk : k.isPlain = true) (hs : k = .escape → s.toList ≠ ['\\', '?', '\n']) :
      Plain (.leaf k m s)
  | branch {k a b ns} (hk : k.isPlain = true) (h : ∀ n ∈ ns, Plain n) : Plain (.branch k a b ns)

/-- The trees of two texts that differ by returns before feeds. -/
inductive Twin : Node source → Node source' → Prop
  | same {k m m' s} : Twin (.leaf k m s) (.leaf k m' s)
  | layout {k m m' s s'} (hk : k.isLayout = true) (hs : s ≠ ",") (hs' : s' ≠ ",") :
      Twin (.leaf k m s) (.leaf k m' s')
  | fragment {m m' s s'} (hs : '\n' ∈ s.toList) (hs' : '\n' ∈ s'.toList) :
      Twin (.leaf .fragment m s) (.leaf .fragment m' s')
  | continuation {m m'} : Twin (.leaf .escape m "\\\n") (.leaf .escape m' "\\\r\n")
  | branch {k a b a' b' ns ns'} (h : List.Forall₂ Twin ns ns') :
      Twin (.branch k a b ns) (.branch k a' b' ns')

theorem Twin.kind_eq {n : Node source} {n' : Node source'} (h : Twin n n') : n'.kind = n.kind := by
  cases h <;> rfl

theorem Twin.comma {n : Node source} {n' : Node source'} (h : Twin n n') (hn : n.text ≠ ",") :
    n'.text ≠ "," := by
  cases h with
  | same => exact hn
  | layout _ _ hs' => exact hs'
  | @fragment _ _ _ s' _ hs' =>
    rintro (rfl : s' = ",")
    exact absurd hs' (by decide)
  | continuation => exact (by decide : "\\\r\n" ≠ ",")
  | branch => exact (by decide : "" ≠ ",")

mutual

theorem Twin.hasFault_eq {n : Node source} {n' : Node source'} (h : Twin n n') :
    n'.hasFault = n.hasFault := by
  cases h with
  | branch h => rw [hasFault, hasFault, anyFault_of_twins h]
  | _ => rfl
termination_by sizeOf n

theorem anyFault_of_twins {ns : List (Node source)} {ns' : List (Node source')}
    (h : List.Forall₂ Twin ns ns') : anyFault ns' = anyFault ns := by
  cases h with
  | nil => rfl
  | cons hn hns => rw [anyFault, anyFault, hn.hasFault_eq, anyFault_of_twins hns]
termination_by sizeOf ns

end

theorem Node.Plain.isPlain {n : Node source} (h : n.Plain) : n.kind.isPlain = true := by
  cases h with
  | leaf hk => exact hk
  | branch hk => exact hk

def Clean (ns : List (Node source)) : Prop :=
  ∀ n ∈ ns, n.Plain

/-- Nodes of kinds that a value is read from, whatever is below them. -/
def Ordinary (ns : List (Node source)) : Prop :=
  ∀ n ∈ ns, n.kind.isPlain = true

theorem Clean.ordinary {ns : List (Node source)} (h : Clean ns) : Ordinary ns :=
  fun n hn => (h n hn).isPlain

/-! ### Comments -/

/-- The comment that stands ahead, where one may be passed over. -/
def passed (html : Bool) (cs : List Char) : Option (Kind × Nat) :=
  if Lexeme.comment cs ≠ 0 then some (.comment, Lexeme.comment cs)
  else if html = true ∧ Lexeme.htmlComment cs ≠ 0 then some (.htmlComment, Lexeme.htmlComment cs)
  else none

theorem layout_succ (html : Bool) (fuel : Nat) (d : Draft source) : d.layout html (fuel + 1) =
    match passed html (d.rest.drop (Lexeme.space d.rest)) with
    | some (k, n) => Draft.layout html fuel (token k n ⟨d.nodes, d.cursor.skip (Lexeme.space d.rest)⟩)
    | none => ⟨d.nodes, d.cursor.skip (Lexeme.space d.rest)⟩ := by
  have hrest : Draft.rest ⟨d.nodes, d.cursor.skip (Lexeme.space d.rest)⟩ =
      d.rest.drop (Lexeme.space d.rest) := rfl
  rw [Draft.layout]
  simp only [hrest]
  generalize d.rest.drop (Lexeme.space d.rest) = cs
  unfold passed
  by_cases hn : Lexeme.comment cs = 0
  · by_cases hm : html = true ∧ Lexeme.htmlComment cs ≠ 0
    · rw [if_neg (not_not.mpr hn), if_pos hm]
      simp [hn, hm.1, hm.2]
    · have hnone : (if html = true then Lexeme.htmlComment cs else 0) = 0 := by
        cases html with
        | false => rfl
        | true => simpa using hm
      rw [if_neg (not_not.mpr hn), if_neg hm]
      simp [hn, hnone]
  · rw [if_pos hn]
    simp [hn]

/-- What is passed over is a comment of some length, and no comma. -/
theorem of_passed {html : Bool} {cs : List Char} {k : Kind} {n : Nat} (h : passed html cs = some (k, n)) :
    k.isLayout = true ∧ n ≠ 0 ∧ ∃ c t, cs = c :: t ∧ c ≠ ',' := by
  have hhead {f : List Char → Nat} (hnil : f [] = 0) (hcomma : ∀ t, f (',' :: t) = 0)
      (hn : f cs ≠ 0) : ∃ c t, cs = c :: t ∧ c ≠ ',' := by
    cases cs with
    | nil => exact absurd hnil hn
    | cons c t =>
      refine ⟨c, t, rfl, ?_⟩
      rintro rfl
      exact hn (hcomma t)
  unfold passed at h
  split at h
  · rename_i hn
    obtain ⟨rfl, rfl⟩ := Prod.mk.inj (Option.some.inj h)
    exact ⟨rfl, hn, hhead rfl (fun _ => rfl) hn⟩
  split at h
  · rename_i hn
    obtain ⟨rfl, rfl⟩ := Prod.mk.inj (Option.some.inj h)
    exact ⟨rfl, hn.2, hhead rfl (fun _ => rfl) hn.2⟩
  · cases h

theorem length_passed_lt {html : Bool} {fuel : Nat} {cs : List Char} {k : Kind} {n : Nat}
    (h : passed html (cs.drop (Lexeme.space cs)) = some (k, n)) (hfuel : cs.length < fuel + 1) :
    ((cs.drop (Lexeme.space cs)).drop n).length < fuel := by
  obtain ⟨-, hn, c, t, hcs, -⟩ := of_passed h
  have hlength := congrArg List.length hcs
  rw [List.length_drop, List.length_cons] at hlength
  rw [List.length_drop, List.length_drop]
  omega

/-- A comment may end in another place, with the same kind and the same text behind it. -/
theorem Returns.passed {cs cs' : List Char} (h : Returns cs cs') (html : Bool) :
    Option.Rel (fun x y => y.1 = x.1 ∧ Returns (cs.drop x.2) (cs'.drop y.2)) (passed html cs)
      (passed html cs') := by
  obtain ⟨hcomment, hdrop⟩ := h.comment
  obtain ⟨hhtml, hdropHtml⟩ := h.htmlComment
  unfold Script.passed
  by_cases hn : Lexeme.comment cs = 0
  · rw [if_neg (not_not.mpr hn), if_neg (not_not.mpr (hcomment.mpr hn))]
    by_cases hm : html = true ∧ Lexeme.htmlComment cs ≠ 0
    · rw [if_pos hm, if_pos ⟨hm.1, mt hhtml.mp hm.2⟩]
      exact .some ⟨rfl, hdropHtml⟩
    · rw [if_neg hm, if_neg fun hm' => hm ⟨hm'.1, mt hhtml.mpr hm'.2⟩]
      exact .none
  · rw [if_pos hn, if_pos (mt hcomment.mp hn)]
    exact .some ⟨rfl, hdrop⟩

/-- Two drafts at the same place of the two texts. -/
structure Keeps (d : Draft source) (d' : Draft source') : Prop where
  nodes : List.Forall₂ Twin d.nodes d'.nodes
  rest : Returns d.rest d'.rest

section Drafts

variable {d e : Draft source} {d' e' : Draft source'} {k : Kind} {c : Char} {cs : List Char}

namespace Keeps

theorem fresh (h : Keeps d d') : Keeps (Draft.fresh d.cursor) (Draft.fresh d'.cursor) :=
  ⟨.nil, h.rest⟩

theorem append (h : Keeps d d') (h' : Keeps e e') : Keeps (d.append e) (d'.append e') :=
  ⟨List.rel_append h'.nodes h.nodes, h'.rest⟩

theorem close (h : Keeps e e') (k : Kind) (start : Text.Cursor source)
    (start' : Text.Cursor source') : Keeps (e.close k start) (e'.close k start') :=
  ⟨.cons (.branch (List.rel_reverse h.nodes)) .nil, h.rest⟩

theorem enclose {read : Draft source → Draft source} {read' : Draft source' → Draft source'}
    (h : Keeps d d') (k : Kind)
    (hread : Keeps (read (Draft.fresh d.cursor)) (read' (Draft.fresh d'.cursor))) :
    Keeps (d.enclose k read) (d'.enclose k read') :=
  h.append (hread.close k d.cursor d'.cursor)

theorem token {n n' : Nat} (h : Keeps d d')
    (htwin : Twin (.leaf k d.cursor.mark (d.cursor.peek n) : Node source)
      (.leaf k d'.cursor.mark (d'.cursor.peek n') : Node source'))
    (hrest : Returns (d.rest.drop n) (d'.rest.drop n')) : Keeps (d.token k n) (d'.token k n') :=
  ⟨.cons htwin h.nodes, hrest⟩

theorem same {n n' : Nat} (h : Keeps d d') (k : Kind) (htake : d'.rest.take n' = d.rest.take n)
    (hrest : Returns (d.rest.drop n) (d'.rest.drop n')) : Keeps (d.token k n) (d'.token k n') := by
  refine h.token ?_ hrest
  have hpeek : d'.cursor.peek n' = d.cursor.peek n := congrArg String.ofList htake
  rw [hpeek]
  exact .same

/-- A token within a line. -/
theorem inLine {f : List Char → Nat} (h : Keeps d d') (k : Kind) (hf : InLine f) :
    Keeps (d.token k (f d.rest)) (d'.token k (f d'.rest)) := by
  obtain ⟨hlength, htake, hdrop⟩ := h.rest.token hf
  rw [hlength]
  exact h.same k htake hdrop

/-- Both texts go on with the same character, if that is no feed. -/
theorem head (h : Keeps d d') (hd : d.rest = c :: cs) (hc : c ≠ '\n') : ∃ cs', d'.rest = c :: cs' := by
  have hrest := h.rest
  rw [hd] at hrest
  obtain ⟨-, cs', hd', -⟩ := hrest.cons hc
  exact ⟨cs', hd'⟩

theorem sign (h : Keeps d d') (hd : d.rest = c :: cs) (hc : c ≠ '\n') :
    Keeps (d.sign 1) (d'.sign 1) := by
  have hrest := h.rest
  rw [hd] at hrest
  obtain ⟨-, cs', hd', hcs⟩ := hrest.cons hc
  refine h.same .punctuation ?_ ?_
  · rw [hd, hd']
    rfl
  · rw [hd, hd']
    exact hcs

theorem word (h : Keeps d d') : d'.word = d.word := by
  obtain ⟨hlength, htake, -⟩ := h.rest.token inLine_word
  show String.ofList (d'.rest.take (Lexeme.word d'.rest)) = String.ofList (d.rest.take (Lexeme.word d.rest))
  rw [hlength, htake]

theorem beginsWith {s : String} (h : Keeps d d') (hs : '\n' ∉ s.toList ∧ '\r' ∉ s.toList) :
    d'.beginsWith s = d.beginsWith s :=
  h.rest.eq_of_bounded (bounded_startsWith hs)

/-! ### White space and comments -/

theorem skip_space (h : Keeps d d') :
    Keeps (⟨d.nodes, d.cursor.skip (Lexeme.space d.rest)⟩ : Draft source)
      (⟨d'.nodes, d'.cursor.skip (Lexeme.space d'.rest)⟩ : Draft source') :=
  ⟨h.nodes, h.rest.drop_space⟩

theorem comment {n n' : Nat} (h : Keeps d d') (hk : k.isLayout = true)
    (hd : ∃ c t, d.rest = c :: t ∧ c ≠ ',') (hd' : ∃ c t, d'.rest = c :: t ∧ c ≠ ',')
    (hdrop : Returns (d.rest.drop n) (d'.rest.drop n')) : Keeps (d.token k n) (d'.token k n') := by
  have hcomma {cs : List Char} {n : Nat} (hcs : ∃ c t, cs = c :: t ∧ c ≠ ',') :
      String.ofList (cs.take n) ≠ "," := by
    obtain ⟨c, t, rfl, hc⟩ := hcs
    intro heq
    have htake : (c :: t).take n = [','] := String.ofList_injective heq
    cases n with
    | zero => cases htake
    | succ n => exact hc (List.cons.inj htake).1
  exact h.token (.layout hk (hcomma hd) (hcomma hd')) hdrop

theorem layout {html : Bool} {fuel fuel' : Nat} (h : Keeps d d') (hfuel : d.rest.length < fuel)
    (hfuel' : d'.rest.length < fuel') : Keeps (d.layout html fuel) (d'.layout html fuel') := by
  induction fuel generalizing d d' fuel' with
  | zero => exact absurd hfuel (Nat.not_lt_zero _)
  | succ fuel ih =>
    obtain ⟨fuel', rfl⟩ : ∃ k, fuel' = k + 1 := ⟨fuel' - 1, by omega⟩
    have hspace := h.skip_space
    have hpassed := hspace.rest.passed html
    rw [layout_succ, layout_succ]
    change Option.Rel _ (passed html (d.rest.drop (Lexeme.space d.rest)))
      (passed html (d'.rest.drop (Lexeme.space d'.rest))) at hpassed
    generalize hx : passed html (d.rest.drop (Lexeme.space d.rest)) = x at hpassed ⊢
    generalize hy : passed html (d'.rest.drop (Lexeme.space d'.rest)) = y at hpassed ⊢
    cases hpassed with
    | none => exact hspace
    | @some x y hxy =>
      obtain ⟨k, n⟩ := x
      obtain ⟨k', n'⟩ := y
      obtain ⟨rfl, hdrop⟩ := hxy
      obtain ⟨hk, hn, hd⟩ := of_passed hx
      obtain ⟨-, hn', hd'⟩ := of_passed hy
      refine ih (hspace.comment hk hd hd' hdrop) ?_ ?_
      · exact length_passed_lt hx hfuel
      · exact length_passed_lt hy hfuel'

theorem space (h : Keeps d d') : Keeps d.space d'.space :=
  h.layout (Nat.lt_succ_self _) (Nat.lt_succ_self _)

theorem gap (h : Keeps d d') : Keeps d.gap d'.gap :=
  h.layout (Nat.lt_succ_self _) (Nat.lt_succ_self _)

end Keeps

/-! ### Where white space ends -/

/-- White space and comments are passed over up to what is neither. -/
theorem layout_suffix (html : Bool) (fuel : Nat) (d : Draft source) :
    (d.layout html fuel).rest <:+ d.rest := by
  induction fuel generalizing d with
  | zero => exact List.suffix_rfl
  | succ fuel ih =>
    rw [layout_succ]
    split
    · exact (ih _).trans ((List.drop_suffix _ _).trans (List.drop_suffix _ _))
    · exact List.drop_suffix _ _

theorem head?_layout (html : Bool) {fuel : Nat} (hfuel : d.rest.length < fuel) :
    ∀ c ∈ (d.layout html fuel).rest.head?, Lexeme.isSpace c = false := by
  induction fuel generalizing d with
  | zero => exact absurd hfuel (Nat.not_lt_zero _)
  | succ fuel ih =>
    rw [layout_succ]
    split
    · rename_i hpassed
      exact ih (length_passed_lt hpassed hfuel)
    · intro c hc
      change c ∈ (d.rest.drop (Lexeme.space d.rest)).head? at hc
      rw [Lexeme.space, drop_takeWhile] at hc
      have hnot := List.head?_dropWhile_not Lexeme.isSpace d.rest
      rw [Option.mem_def] at hc
      rw [hc] at hnot
      simpa using hnot

theorem cursor_layout (html : Bool) (fuel : Nat) (ns ms : List (Node source))
    (c : Text.Cursor source) :
    (Draft.layout html fuel ⟨ns, c⟩).cursor = (Draft.layout html fuel ⟨ms, c⟩).cursor := by
  induction fuel generalizing ns ms c with
  | zero => rfl
  | succ fuel ih =>
    rw [layout_succ, layout_succ]
    change Text.Cursor source at c
    simp only [Draft.rest]
    split
    · exact ih _ _ _
    · rfl

/-! ### Clean nodes -/

theorem clean_append_iff : Clean (d.append e).nodes ↔ Clean e.nodes ∧ Clean d.nodes :=
  List.forall_mem_append

theorem clean_cons_iff {n : Node source} {ns : List (Node source)} :
    Clean (n :: ns) ↔ n.Plain ∧ Clean ns :=
  List.forall_mem_cons

theorem clean_close_iff {start : Text.Cursor source} :
    Clean (e.close k start).nodes ↔ k.isPlain = true ∧ Clean e.nodes := by
  have hbranch : Clean (e.close k start).nodes ↔
      (Node.branch k start.mark e.cursor.mark e.nodes.reverse).Plain :=
    List.forall_mem_singleton
  rw [hbranch]
  constructor
  · intro h
    cases h with
    | branch hk h => exact ⟨hk, fun n hn => h n (List.mem_reverse.mpr hn)⟩
  · rintro ⟨hk, h⟩
    exact .branch hk fun n hn => h n (List.mem_reverse.mp hn)

theorem clean_enclose_iff {read : Draft source → Draft source} : Clean (d.enclose k read).nodes ↔
    (k.isPlain = true ∧ Clean (read (fresh d.cursor)).nodes) ∧ Clean d.nodes := by
  rw [enclose, clean_append_iff, clean_close_iff]

/-- What is added to a draft leaves the rest of it as it was. -/
theorem Adds.clean {P : List (Node source) → Prop} (h : Adds P d e) (he : Clean e.nodes) :
    Clean d.nodes := by
  obtain ⟨added, hadded, -⟩ := h
  rw [hadded] at he
  exact (List.forall_mem_append.mp he).2

/-! ### Nodes of no ordinary kind -/

theorem ordinary_append_iff :
    Ordinary (d.append e).nodes ↔ Ordinary e.nodes ∧ Ordinary d.nodes :=
  List.forall_mem_append

theorem ordinary_cons_iff {n : Node source} {ns : List (Node source)} :
    Ordinary (n :: ns) ↔ n.kind.isPlain = true ∧ Ordinary ns :=
  List.forall_mem_cons

theorem not_ordinary_missing (d : Draft source) : ¬ Ordinary d.missing.nodes := by
  intro h
  have hk := (ordinary_cons_iff.mp h).1
  cases hk

theorem not_ordinary_token {n : Nat} (hk : k.isPlain = false) (d : Draft source) :
    ¬ Ordinary (d.token k n).nodes := by
  intro h
  have hplain : k.isPlain = true := (ordinary_cons_iff.mp h).1
  exact Bool.false_ne_true (hk.symm.trans hplain)

theorem not_ordinary_close {start : Text.Cursor source} (hk : k.isPlain = false) :
    ¬ Ordinary (e.close k start).nodes := by
  intro h
  have hplain : k.isPlain = true := h _ List.mem_cons_self
  exact Bool.false_ne_true (hk.symm.trans hplain)

theorem not_ordinary_append_close {start : Text.Cursor source} (hk : k.isPlain = false) :
    ¬ Ordinary (d.append (e.close k start)).nodes :=
  fun h => not_ordinary_close hk (ordinary_append_iff.mp h).1

theorem Adds.ordinary {P : List (Node source) → Prop} (h : Adds P d e) (he : Ordinary e.nodes) :
    Ordinary d.nodes := by
  obtain ⟨added, hadded, -⟩ := h
  rw [hadded] at he
  exact (List.forall_mem_append.mp he).2

/-! ### What was added -/

section Added

variable {n : Node source} {ns : List (Node source)} {rest : List Char}

theorem Draft.Leads.eq_node {m : Node source} (h : Leads d e [n] rest) (he : e.nodes = m :: d.nodes) : n = m :=
  List.head_eq_of_cons_eq (h.nodes_eq.symm.trans he)

theorem Draft.Leads.of_append (h : Leads d (d.append e) ns rest) : Leads (fresh d.cursor) e ns rest where
  nodes_eq := by simpa [fresh] using h.nodes_eq
  rest_eq := h.rest_eq

theorem Draft.Leads.of_close (h : Leads d (d.append (e.close k d.cursor)) [n] rest) :
    ∃ a b ns, n = .branch k a b ns ∧ Leads (fresh d.cursor) e ns rest := by
  refine ⟨_, _, _, h.eq_node rfl, ?_, h.rest_eq⟩
  simp [fresh]

theorem Draft.Leads.of_enclose {read : Draft source → Draft source}
    (h : Leads d (d.enclose k read) [n] rest) :
    ∃ a b ns, n = .branch k a b ns ∧ Leads (fresh d.cursor) (read (fresh d.cursor)) ns rest :=
  h.of_close

theorem Draft.Leads.ordinary (h : Leads (fresh d.cursor) e ns rest) (hns : Ordinary ns) :
    Ordinary e.nodes := by
  rw [h.nodes_eq, show (fresh d.cursor).nodes = [] from rfl, List.append_nil]
  exact fun n hn => hns n (List.mem_reverse.mp hn)

theorem Draft.Leads.isPlain (h : Leads d e [n] rest) (he : Ordinary e.nodes) : n.kind.isPlain = true :=
  he n (by rw [h.nodes_eq]; exact List.mem_cons_self)

/-- What adds one node adds no more, if none of what it adds has a fault. -/
theorem Draft.Leads.exists_one (h : Leads d e ns rest) (hone : Adds One d e) (hns : anyFault ns = false) :
    ∃ n, ns = [n] := by
  obtain ⟨added, hadded, hone⟩ := hone
  have heq : added = ns.reverse := List.append_cancel_right (hadded.symm.trans h.nodes_eq)
  subst heq
  obtain ⟨n, hn, -⟩ := hone.resolve_left (by rw [anyFault_reverse, hns]; exact Bool.false_ne_true)
  exact ⟨n, by rw [← List.reverse_reverse ns, hn]; rfl⟩

end Added

/-! ### Where expressions end -/

/-- An expression may end before what comes next. -/
def Ended (d : Draft source) : Prop :=
  Ends d.gap.rest

theorem ended_iff_of_cursor_eq (h : d.cursor = e.cursor) : Ended d ↔ Ended e := by
  obtain ⟨ns, c⟩ := d
  obtain ⟨ms, c'⟩ := e
  obtain rfl : c = c' := h
  have hcursor := cursor_layout false (c.rest.length + 1) ns ms c
  have hrest : (Draft.gap ⟨ns, c⟩).rest = (Draft.gap ⟨ms, c⟩).rest := congrArg Text.Cursor.rest hcursor
  rw [Ended, Ended, hrest]

theorem Ended.of_append (h : Ended (d.append e)) : Ended e :=
  (ended_iff_of_cursor_eq (d := d.append e) (e := e) rfl).mp h

theorem Ended.of_close {start : Text.Cursor source} (h : Ended (e.close k start)) : Ended e :=
  (ended_iff_of_cursor_eq (d := e.close k start) (e := e) rfl).mp h

theorem Ended.of_enclose {read : Draft source → Draft source} (h : Ended (d.enclose k read)) :
    Ended (read (fresh d.cursor)) :=
  h.of_append.of_close

theorem Ends.returns {cs cs' : List Char} (h : Ends cs) (hcs : Returns cs cs') : Ends cs' := by
  cases h with
  | nil =>
    rw [hcs.eq_nil]
    exact .nil
  | _ =>
    obtain ⟨-, _, rfl, -⟩ := hcs.cons (by decide)
    constructor

theorem Keeps.ended (h : Keeps d d') (hd : Ended d) : Ended d' :=
  Ends.returns hd h.gap.rest

/-! ### What only goes on with a node of another kind -/

/-- Nodes of which something is looked at, and that are no faults. -/
def Open (ns : List (Node source)) : Prop :=
  ∀ n ∈ ns, n.kind.isOpaque = false ∧ n.kind.isFault = false

theorem Ordinary.opens {ns : List (Node source)} (h : Ordinary ns) : Open ns := by
  intro n hn
  have hk := h n hn
  revert hk
  cases n.kind <;> decide

theorem not_open_missing (d : Draft source) : ¬ Open d.missing.nodes := by
  intro h
  cases (h _ List.mem_cons_self).2

theorem not_open_close {start : Text.Cursor source} (hk : k.isOpaque = true) (e : Draft source) :
    ¬ Open (e.close k start).nodes := by
  intro h
  have hopen := (h _ List.mem_cons_self).1
  exact Bool.false_ne_true (hopen.symm.trans hk)

variable {start : Text.Cursor source} {fuel : Nat}

theorem expressionsTail_of_open (h : Open (expressionsTail fuel start e).nodes) :
    expressionsTail fuel start e = e := by
  induction fuel generalizing e with
  | zero => exact absurd h (not_open_missing e)
  | succ fuel ih =>
    rw [expressionsTail] at h ⊢
    split at h
    · rw [ih h] at h
      exact absurd h (not_open_close rfl _)
    · rename_i hcomma
      rw [if_neg hcomma]

theorem binaryTail_of_open (h : Open (binaryTail fuel start e).nodes) :
    binaryTail fuel start e = e := by
  induction fuel generalizing e with
  | zero => exact absurd h (not_open_missing e)
  | succ fuel ih =>
    rw [binaryTail] at h ⊢
    simp only at h ⊢
    split at h
    · rename_i hnone
      rw [if_pos hnone]
    · rw [ih h] at h
      exact absurd h (not_open_close rfl _)

theorem postfixTail_of_open {calls : Bool} (h : Open (postfixTail fuel calls start e).nodes) :
    postfixTail fuel calls start e = e := by
  induction fuel generalizing e with
  | zero => exact absurd h (not_open_missing e)
  | succ fuel ih =>
    have hgoes {k : Kind} (hk : k.isOpaque = true) (f : Draft source) :
        ¬ Open (postfixTail fuel calls start (f.close k start)).nodes := by
      intro hopen
      rw [ih hopen] at hopen
      exact not_open_close hk f hopen
    generalize hr : postfixTail (fuel + 1) calls start e = r at h ⊢
    rw [postfixTail] at hr
    simp only at hr
    split at hr
    · split at hr
      · exact absurd (hr ▸ h) (hgoes rfl _)
      · exact hr.symm
    · exact absurd (hr ▸ h) (hgoes rfl _)
    · exact absurd (hr ▸ h) (hgoes rfl _)
    · exact absurd (hr ▸ h) (hgoes rfl _)
    · split at hr
      · exact hr.symm
      · split at hr <;> exact absurd (hr ▸ h) (hgoes rfl _)
    · split at hr
      · exact absurd (hr ▸ h) (hgoes rfl _)
      · exact hr.symm
    · split at hr
      · exact absurd (hr ▸ h) (hgoes rfl _)
      · exact hr.symm
    · exact hr.symm

theorem assigned_of_open (h : Open (assigned fuel start e).nodes) : assigned fuel start e = e := by
  cases fuel with
  | zero => exact absurd h (not_open_missing e)
  | succ fuel =>
    generalize hr : assigned (fuel + 1) start e = r at h ⊢
    rw [assigned] at hr
    split at hr
    · split at hr
      · exact absurd (hr ▸ h) (not_open_close rfl _)
      split at hr
      · exact absurd (hr ▸ h) (not_open_close rfl _)
      · exact hr.symm
    · exact hr.symm

theorem postfixed_of_open (h : Open (postfixed (fuel + 1) d).nodes) :
    postfixed (fuel + 1) d = d.append (primary fuel (fresh d.cursor)) := by
  rw [postfixed] at h ⊢
  have hassigned := assigned_of_open fun n hn => h n (List.mem_append_left _ hn)
  rw [hassigned] at h ⊢
  rw [postfixTail_of_open fun n hn => h n (List.mem_append_left _ hn)]

theorem expression_of_open (h : Open (expression (fuel + 1) d).nodes) :
    expression (fuel + 1) d = d.append (operand fuel (fresh d.cursor)) := by
  rw [expression] at h ⊢
  simp only at h ⊢
  split at h
  · exact absurd (fun n hn => h n (List.mem_append_left _ hn)) (not_open_close rfl _)
  · rename_i hnone
    rw [if_neg hnone, binaryTail_of_open fun n hn => h n (List.mem_append_left _ hn)]

theorem expressions_of_open (h : Open (expressions (fuel + 1) d).nodes) :
    expressions (fuel + 1) d = d.append (expression fuel (fresh d.cursor)) := by
  rw [expressions] at h ⊢
  rw [expressionsTail_of_open fun n hn => h n (List.mem_append_left _ hn)]

end Drafts

end Workyard.Script
