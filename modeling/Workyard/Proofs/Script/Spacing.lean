import Mathlib.Data.List.TakeWhile
import Workyard.Proofs.Script.Twins

/-!
# White space and comments

What may stand between two tokens. Reading passes over white space and comments and comes to what
stands behind them, and whatever it passes over is white space and comments.
-/

namespace Workyard.Script

set_option autoImplicit false

open Node Draft

variable {source : List Char}

/-- White space and comments, those in the manner of HTML only where `html` allows them. A comment
that goes to the end of its line stands there with that end. -/
inductive Spacing (html : Bool) : List Char → Prop
  | nil : Spacing html []
  | space {c cs} (hc : Lexeme.isSpace c = true) (h : Spacing html cs) : Spacing html (c :: cs)
  | block {b cs} (hb : Lexeme.blockCommentTail b = some b.length) (h : Spacing html cs) :
      Spacing html ('/' :: '*' :: (b ++ cs))
  | line {l c cs} (hl : ∀ x ∈ l, Lexeme.isLineEnd x = false ∧ x ≠ '\r')
      (hc : Lexeme.isLineEnd c = true ∨ c = '\r') (h : Spacing html cs) :
      Spacing html ('/' :: '/' :: (l ++ c :: cs))
  | remark {mark l c cs} (hhtml : html = true)
      (hmark : mark = ['<', '!', '-', '-'] ∨ mark = ['-', '-', '>'])
      (hl : ∀ x ∈ l, Lexeme.isLineEnd x = false) (hc : Lexeme.isLineEnd c = true)
      (h : Spacing html cs) : Spacing html (mark ++ (l ++ c :: cs))

variable {html html' : Bool} {x y cs rest : List Char} {c : Char}

namespace Spacing

theorem append (hx : Spacing html x) (hy : Spacing html y) : Spacing html (x ++ y) := by
  induction hx with
  | nil => exact hy
  | space hc _ ih => exact .space hc ih
  | block hb _ ih =>
    rw [List.cons_append, List.cons_append, List.append_assoc]
    exact .block hb ih
  | line hl hc _ ih =>
    rw [List.cons_append, List.cons_append, List.append_assoc]
    exact .line hl hc ih
  | remark hhtml hmark hl hc _ ih =>
    rw [List.append_assoc, List.append_assoc]
    exact .remark hhtml hmark hl hc ih

theorem mono (h : html = true → html' = true) (hx : Spacing html x) : Spacing html' x := by
  induction hx with
  | nil => exact .nil
  | space hc _ ih => exact .space hc ih
  | block hb _ ih => exact .block hb ih
  | line hl hc _ ih => exact .line hl hc ih
  | remark hhtml hmark hl hc _ ih => exact .remark (h hhtml) hmark hl hc ih

theorem of_spaces (h : ∀ c ∈ x, Lexeme.isSpace c = true) : Spacing html x := by
  induction x with
  | nil => exact .nil
  | cons c x ih =>
    rw [List.forall_mem_cons] at h
    exact .space h.1 (ih h.2)

/-- Up to the first comment in the manner of HTML there is none. -/
theorem exists_plain (hx : Spacing html x) : ∃ y z, x = y ++ z ∧ Spacing false y ∧
    (z = [] ∨ ∃ t, z = '<' :: t ∨ z = '-' :: t) := by
  induction hx with
  | nil => exact ⟨[], [], rfl, .nil, .inl rfl⟩
  | space hc _ ih =>
    obtain ⟨y, z, rfl, hy, hz⟩ := ih
    exact ⟨_ :: y, z, rfl, .space hc hy, hz⟩
  | @block b _ hb _ ih =>
    obtain ⟨y, z, rfl, hy, hz⟩ := ih
    exact ⟨'/' :: '*' :: (b ++ y), z, by simp, .block hb hy, hz⟩
  | @line l c _ hl hc _ ih =>
    obtain ⟨y, z, rfl, hy, hz⟩ := ih
    exact ⟨'/' :: '/' :: (l ++ c :: y), z, by simp, .line hl hc hy, hz⟩
  | remark _ hmark =>
    refine ⟨[], _, rfl, .nil, .inr ?_⟩
    rcases hmark with rfl | rfl
    · exact ⟨_, .inl rfl⟩
    · exact ⟨_, .inr rfl⟩

/-- No comment begins with white space. -/
theorem tail (h : Spacing html (c :: cs)) (hc : Lexeme.isSpace c = true) : Spacing html cs := by
  generalize hx : c :: cs = x at h
  cases h with
  | nil => cases hx
  | space _ h =>
    obtain ⟨rfl, rfl⟩ := List.cons.inj hx
    exact h
  | block =>
    obtain ⟨rfl, -⟩ := List.cons.inj hx
    cases hc
  | line =>
    obtain ⟨rfl, -⟩ := List.cons.inj hx
    cases hc
  | remark _ hmark =>
    rcases hmark with rfl | rfl
    · obtain ⟨rfl, -⟩ := List.cons.inj hx
      cases hc
    · obtain ⟨rfl, -⟩ := List.cons.inj hx
      cases hc

end Spacing

/-- The end of a line is white space. -/
theorem isSpace_of_lineEnd (h : Lexeme.isLineEnd c = true ∨ c = '\r') : Lexeme.isSpace c = true := by
  rcases h with h | rfl
  · simp only [Lexeme.isLineEnd, Bool.or_eq_true, beq_iff_eq] at h
    rcases h with (rfl | rfl) | rfl <;> decide
  · decide

/-! ### How far comments reach -/

theorem blockCommentTail_append {b : List Char} {n : Nat} (h : Lexeme.blockCommentTail b = some n)
    (y : List Char) : Lexeme.blockCommentTail (b ++ y) = some n := by
  induction b generalizing n with
  | nil => cases h
  | cons c b ih =>
    rw [List.cons_append, blockCommentTail_cons]
    rw [blockCommentTail_cons] at h
    by_cases hclose : c = '*' ∧ (b.head? == some '/') = true
    · have hhead : ((b ++ y).head? == some '/') = true := by
        obtain ⟨t, rfl⟩ := List.head?_eq_some_iff.mp (beq_iff_eq.mp hclose.2)
        rfl
      rw [if_pos hclose] at h
      rw [if_pos ⟨hclose.1, hhead⟩]
      exact h
    · rw [if_neg hclose] at h
      obtain ⟨k, hk, rfl⟩ := Option.map_eq_some_iff.mp h
      have hopen : ¬ (c = '*' ∧ ((b ++ y).head? == some '/') = true) := by
        cases b with
        | nil => cases hk
        | cons x b => exact hclose
      rw [if_neg hopen, ih hk]
      rfl

/-- A block comment is what it is with nothing behind it. -/
theorem blockCommentTail_take {n : Nat} (h : Lexeme.blockCommentTail cs = some n) :
    Lexeme.blockCommentTail (cs.take n) = some n ∧ n ≤ cs.length := by
  induction cs generalizing n with
  | nil => cases h
  | cons c cs ih =>
    rw [blockCommentTail_cons] at h
    split at h
    · rename_i hclose
      obtain ⟨rfl, hhead⟩ := hclose
      obtain ⟨t, rfl⟩ := List.head?_eq_some_iff.mp (beq_iff_eq.mp hhead)
      obtain rfl := Option.some.inj h
      exact ⟨rfl, by simp⟩
    · rename_i hopen
      obtain ⟨k, hk, rfl⟩ := Option.map_eq_some_iff.mp h
      obtain ⟨htake, hle⟩ := ih hk
      refine ⟨?_, by simpa using hle⟩
      have hopen' : ¬ (c = '*' ∧ ((cs.take k).head? == some '/') = true) := by
        rintro ⟨hc, hhead⟩
        refine hopen ⟨hc, ?_⟩
        cases k with
        | zero => cases hhead
        | succ k =>
          rw [List.head?_take] at hhead
          simpa using hhead
      rw [List.take_succ_cons, blockCommentTail_cons, if_neg hopen', htake]
      rfl

theorem comment_block {b : List Char} (hb : Lexeme.blockCommentTail b = some b.length) (y : List Char) :
    Lexeme.comment ('/' :: '*' :: (b ++ y)) = b.length + 2 := by
  rw [Lexeme.comment, blockCommentTail_append hb y]
  rfl

theorem comment_toLineEnd {l : List Char} (hl : ∀ x ∈ l, Lexeme.isLineEnd x = false ∧ x ≠ '\r')
    (hc : Lexeme.isLineEnd c = true ∨ c = '\r') (y : List Char) :
    Lexeme.comment ('/' :: '/' :: (l ++ c :: y)) = l.length + 2 := by
  have hstop : (!(Lexeme.isLineEnd c || c == '\r')) = false := by
    rcases hc with hc | rfl
    · rw [hc]
      rfl
    · rfl
  rw [Lexeme.comment, List.takeWhile_append_of_pos (fun x hx => by simp [hl x hx]),
    List.takeWhile_cons, hstop, if_neg Bool.false_ne_true, List.append_nil, Nat.add_comm]

theorem htmlComment_toLineEnd {mark l : List Char}
    (hmark : mark = ['<', '!', '-', '-'] ∨ mark = ['-', '-', '>'])
    (hl : ∀ x ∈ l, Lexeme.isLineEnd x = false) (hc : Lexeme.isLineEnd c = true) (y : List Char) :
    Lexeme.htmlComment (mark ++ (l ++ c :: y)) = (mark ++ l).length := by
  have hline : (l ++ c :: y).takeWhile (fun x => !Lexeme.isLineEnd x) = l := by
    rw [List.takeWhile_append_of_pos (fun x hx => by simp [hl x hx]), List.takeWhile_cons, hc,
      Bool.not_true, if_neg Bool.false_ne_true, List.append_nil]
  rcases hmark with rfl | rfl
  · show 4 + ((l ++ c :: y).takeWhile fun x => !Lexeme.isLineEnd x).length = _
    rw [hline]
    simp only [List.length_append, List.length_cons, List.length_nil]
  · show 3 + ((l ++ c :: y).takeWhile fun x => !Lexeme.isLineEnd x).length = _
    rw [hline]
    simp only [List.length_append, List.length_cons, List.length_nil]

/-! ### Passing over -/

/-- The nodes of comments that may be passed over. -/
def Passed (html : Bool) (n : Node source) : Prop :=
  ∃ k m s, n = .leaf k m s ∧ (k = .comment ∨ html = true ∧ k = .htmlComment) ∧ s ≠ ","

theorem Passed.isLeafOf {n : Node source} (h : Passed html n) : n.IsLeafOf Kind.isLayout := by
  obtain ⟨k, m, s, rfl, rfl | ⟨-, rfl⟩, -⟩ := h
  · exact ⟨.comment, m, s, rfl, rfl⟩
  · exact ⟨.htmlComment, m, s, rfl, rfl⟩

/-- Neither white space nor a comment that may be passed over begins the text. -/
structure Firm (html : Bool) (cs : List Char) : Prop where
  space : Lexeme.space cs = 0
  comment : Lexeme.comment cs = 0
  htmlComment : html = true → Lexeme.htmlComment cs = 0

theorem passed_firm (h : Firm html cs) : passed html cs = none := by
  rw [passed, if_neg (not_not.mpr h.comment), if_neg]
  rintro ⟨hhtml, hne⟩
  exact hne (h.htmlComment hhtml)

theorem passed_leaf {k : Kind} (hk : k = .comment ∨ html = true ∧ k = .htmlComment) (hc : c ≠ ',')
    (m : Text.Mark source) : Passed html (.leaf k m (String.ofList (c :: cs))) := by
  refine ⟨k, m, _, rfl, hk, fun heq => hc ?_⟩
  exact (List.cons.inj (String.ofList_injective heq)).1

theorem passed_token {d : Draft source} {k : Kind} {n : Nat} (h : passed html d.rest = some (k, n)) :
    Passed html (.leaf k d.cursor.mark (d.cursor.peek n) : Node source) := by
  obtain ⟨-, hn, c, t, hd, hc⟩ := of_passed h
  obtain ⟨j, rfl⟩ := Nat.exists_eq_succ_of_ne_zero hn
  have hpeek : d.cursor.peek (j + 1) = String.ofList (c :: t.take j) :=
    congrArg String.ofList (congrArg (List.take (j + 1)) hd)
  rw [hpeek]
  refine passed_leaf ?_ hc _
  unfold passed at h
  split at h
  · exact .inl (Prod.mk.inj (Option.some.inj h)).1.symm
  split at h
  · rename_i hhtml
    exact .inr ⟨hhtml.1, (Prod.mk.inj (Option.some.inj h)).1.symm⟩
  · cases h

section Layout

variable {d : Draft source} {fuel : Nat}

theorem skip_zero (d : Draft source) : (⟨d.nodes, d.cursor.skip 0⟩ : Draft source) = d := by
  obtain ⟨ns, c⟩ := d
  simp [Text.Cursor.skip]

/-- Where nothing stands to pass over, nothing is. -/
theorem layout_of_firm (h : Firm html d.rest) : d.layout html fuel = d := by
  cases fuel with
  | zero => rfl
  | succ fuel =>
    rw [layout_succ, h.space, List.drop_zero, passed_firm h]
    exact skip_zero d

/-- White space is passed over in any number of steps. -/
theorem layout_cons (hd : d.rest = c :: cs) (hc : Lexeme.isSpace c = true) :
    d.layout html (fuel + 1) = Draft.layout html (fuel + 1) ⟨d.nodes, d.cursor.skip 1⟩ := by
  obtain ⟨ns, cursor⟩ := d
  have hcursor : cursor.rest = c :: cs := hd
  have hspace : Lexeme.space (c :: cs) = Lexeme.space cs + 1 := by
    rw [Lexeme.space, List.takeWhile_cons_of_pos hc]
    rfl
  have hskip : (cursor.skip 1).skip (Lexeme.space cs) = cursor.skip (Lexeme.space cs + 1) := by
    simp [Text.Cursor.skip, hcursor, Nat.add_assoc]
  have hrest : Draft.rest ⟨ns, cursor.skip 1⟩ = cs := by
    show cursor.rest.drop 1 = cs
    rw [hcursor]
    rfl
  rw [layout_succ, layout_succ]
  simp only [hrest, hskip, show Draft.rest ⟨ns, cursor⟩ = c :: cs from hcursor, hspace,
    List.drop_succ_cons]

/-- A comment is passed over in one step. -/
theorem layout_of_passed {k : Kind} {n : Nat} (hspace : Lexeme.space d.rest = 0)
    (h : passed html d.rest = some (k, n)) :
    d.layout html (fuel + 1) = (d.token k n).layout html fuel := by
  rw [layout_succ, hspace, List.drop_zero, h]
  simp only [skip_zero]

theorem leads_nil (h : d.rest = rest) : Leads d d [] rest :=
  ⟨rfl, h⟩

/-- A comment is passed over with the end of its line. -/
theorem leads_comment {k : Kind} {ms : List Char} (hspace : Lexeme.space d.rest = 0)
    (hpassed : passed html d.rest = some (k, ms.length)) (hd : d.rest = ms ++ c :: y)
    (hc : Lexeme.isSpace c = true)
    (h : ∀ e : Draft source, e.rest = y →
      ∃ ns, (∀ n ∈ ns, Passed html' n) ∧ Leads e (e.layout html (fuel + 1)) ns cs) :
    ∃ m ns, (∀ n ∈ ns, Passed html' n) ∧
      Leads d (d.layout html (fuel + 2)) (.leaf k m (String.ofList ms) :: ns) cs := by
  have htoken := leads_token k hd
  obtain ⟨ns, hns, hleads⟩ := h ⟨(d.token k ms.length).nodes, (d.token k ms.length).cursor.skip 1⟩
    (congrArg (List.drop 1) htoken.rest_eq)
  refine ⟨d.cursor.mark, ns, hns, ?_⟩
  rw [layout_of_passed hspace hpassed, layout_cons htoken.rest_eq hc]
  exact htoken.trans ⟨hleads.nodes_eq, hleads.rest_eq⟩

/-- White space and comments are passed over. -/
theorem Spacing.leads (hx : Spacing html' x) (hhtml : html' = true → html = true) (hcs : Firm html cs)
    (hd : d.rest = x ++ cs) (hfuel : x.length < fuel) :
    ∃ ns, (∀ n ∈ ns, Passed html' n) ∧ Leads d (d.layout html fuel) ns cs := by
  induction hx generalizing d fuel with
  | nil =>
    refine ⟨[], List.forall_mem_nil _, ?_⟩
    rw [layout_of_firm (show Firm html d.rest from hd ▸ hcs)]
    exact leads_nil hd
  | space hc _ ih =>
    obtain ⟨k, rfl⟩ : ∃ k, fuel = k + 1 := ⟨fuel - 1, by omega⟩
    obtain ⟨ns, hns, hleads⟩ := ih
      (show Draft.rest ⟨d.nodes, d.cursor.skip 1⟩ = _ from congrArg (List.drop 1) hd)
      (Nat.lt_of_succ_lt hfuel)
    refine ⟨ns, hns, ?_⟩
    rw [layout_cons hd hc]
    exact ⟨hleads.nodes_eq, hleads.rest_eq⟩
  | @block b y hb _ ih =>
    obtain ⟨k, rfl⟩ : ∃ k, fuel = k + 1 := ⟨fuel - 1, by omega⟩
    simp only [List.length_cons, List.length_append] at hfuel
    have hd : d.rest = ('/' :: '*' :: b) ++ (y ++ cs) := by simpa using hd
    have hpassed : passed html d.rest = some (.comment, ('/' :: '*' :: b).length) := by
      have hlength := comment_block hb (y ++ cs)
      rw [hd, passed, List.cons_append, List.cons_append, hlength, if_pos (Nat.succ_ne_zero _)]
      rfl
    have htoken := leads_token .comment hd
    obtain ⟨ns, hns, hleads⟩ := ih htoken.rest_eq (show y.length < k by omega)
    rw [layout_of_passed (by rw [hd]; rfl) hpassed]
    exact ⟨_, List.forall_mem_cons.mpr ⟨passed_leaf (.inl rfl) (by decide) _, hns⟩,
      htoken.trans hleads⟩
  | @line l c y hl hc _ ih =>
    simp only [List.length_cons, List.length_append] at hfuel
    obtain ⟨k, rfl⟩ : ∃ k, fuel = k + 2 := ⟨fuel - 2, by omega⟩
    have hd : d.rest = ('/' :: '/' :: l) ++ c :: (y ++ cs) := by simpa using hd
    have hpassed : passed html d.rest = some (.comment, ('/' :: '/' :: l).length) := by
      have hlength := comment_toLineEnd hl hc (y ++ cs)
      rw [hd, passed, List.cons_append, List.cons_append, hlength, if_pos (Nat.succ_ne_zero _)]
      rfl
    obtain ⟨m, ns, hns, hleads⟩ := leads_comment (by rw [hd]; rfl) hpassed hd (isSpace_of_lineEnd hc)
      fun e he => ih he (show y.length < k + 1 by omega)
    exact ⟨_, List.forall_mem_cons.mpr ⟨passed_leaf (.inl rfl) (by decide) _, hns⟩, hleads⟩
  | @remark mark l c y hallowed hmark hl hc _ ih =>
    simp only [List.length_cons, List.length_append] at hfuel
    obtain ⟨k, rfl⟩ : ∃ k, fuel = k + 2 := ⟨fuel - 2, by omega⟩
    have hd : d.rest = (mark ++ l) ++ c :: (y ++ cs) := by simpa using hd
    have hlength : Lexeme.htmlComment d.rest = (mark ++ l).length := by
      rw [hd, List.append_assoc]
      exact htmlComment_toLineEnd hmark hl hc (y ++ cs)
    obtain ⟨x, t, hmark, hne, hslash, hspace⟩ : ∃ x t, mark = x :: t ∧ x ≠ ',' ∧ x ≠ '/' ∧
        Lexeme.isSpace x = false := by
      rcases hmark with rfl | rfl <;> exact ⟨_, _, rfl, by decide⟩
    subst hmark
    have hcomment : Lexeme.comment d.rest = 0 := by
      rw [hd, List.cons_append, List.cons_append, Lexeme.comment.eq_def]
      split
      · rename_i heq
        exact absurd (List.cons.inj heq).1 hslash
      · rename_i heq
        exact absurd (List.cons.inj heq).1 hslash
      · rfl
    have hpassed : passed html d.rest = some (.htmlComment, (x :: t ++ l).length) := by
      rw [passed, hcomment, if_neg (not_not.mpr rfl), hlength,
        if_pos ⟨hhtml hallowed, Nat.succ_ne_zero _⟩]
    have hstart : Lexeme.space d.rest = 0 := by
      rw [hd, Lexeme.space, List.cons_append, List.cons_append, List.takeWhile_cons, hspace]
      rfl
    obtain ⟨m, ns, hns, hleads⟩ := leads_comment hstart hpassed hd (isSpace_of_lineEnd (.inl hc))
      fun e he => ih he (show y.length < k + 1 by omega)
    exact ⟨_, List.forall_mem_cons.mpr ⟨passed_leaf (.inr ⟨hallowed, rfl⟩) hne _, hns⟩, hleads⟩

end Layout

/-! ### What is passed over -/

theorem head_dropWhile {f : Char → Bool} (h : cs.dropWhile f = c :: rest) : f c = false := by
  have hnot := List.head?_dropWhile_not f cs
  rw [h] at hnot
  simpa using hnot

/-- A comment that goes to the end of its line is passed over with that end. -/
theorem Spacing.exists_cons {f : Char → Bool} {r : List Char} (hx : Spacing html x)
    (hcs : cs.dropWhile f = x ++ r) (hr : ∀ c ∈ r.head?, Lexeme.isSpace c = false) (hne : r ≠ [])
    (hf : ∀ c, f c = false → Lexeme.isSpace c = true) :
    ∃ c y, x = c :: y ∧ f c = false ∧ Spacing html y := by
  cases x with
  | nil =>
    obtain ⟨c, t, rfl⟩ := List.exists_cons_of_ne_nil hne
    have hspace := hf c (head_dropWhile hcs)
    rw [hr c rfl] at hspace
    cases hspace
  | cons c y =>
    have hc := head_dropWhile hcs
    exact ⟨c, y, rfl, hc, hx.tail (hf c hc)⟩

theorem spacing_comment {r : List Char} (hn : Lexeme.comment cs ≠ 0) (hx : Spacing html x)
    (hcs : cs.drop (Lexeme.comment cs) = x ++ r) (hr : ∀ c ∈ r.head?, Lexeme.isSpace c = false)
    (hne : r ≠ []) : Spacing html (cs.take (Lexeme.comment cs) ++ x) := by
  unfold Lexeme.comment at hn hcs ⊢
  split at hn
  · rename_i t
    simp only [Nat.add_comm 2, List.drop_succ_cons, List.take_succ_cons] at hcs ⊢
    rw [drop_takeWhile] at hcs
    have hend (c : Char) (hc : (!(Lexeme.isLineEnd c || c == '\r')) = false) :
        Lexeme.isLineEnd c = true ∨ c = '\r' := by
      simpa [or_iff_not_imp_left] using hc
    obtain ⟨c, y, rfl, hc, hy⟩ := hx.exists_cons hcs hr hne fun c hc => isSpace_of_lineEnd (hend c hc)
    have hl : ∀ x ∈ t.takeWhile fun c => !(Lexeme.isLineEnd c || c == '\r'),
        Lexeme.isLineEnd x = false ∧ x ≠ '\r' := by
      intro x hx
      simpa using List.mem_takeWhile_imp hx
    have htake := List.prefix_iff_eq_take.mp
      (List.takeWhile_prefix (l := t) fun c => !(Lexeme.isLineEnd c || c == '\r'))
    rw [← htake]
    exact .line hl (hend c hc) hy
  · rename_i t
    cases htail : Lexeme.blockCommentTail t with
    | none =>
      rw [htail] at hn
      exact absurd rfl hn
    | some n =>
      simp only [htail, Option.map_some, Option.getD_some, List.drop_succ_cons,
        List.take_succ_cons] at hcs ⊢
      obtain ⟨htake, hle⟩ := blockCommentTail_take htail
      refine .block ?_ hx
      rw [htake, List.length_take_of_le hle]
  · exact absurd rfl hn

theorem spacing_htmlComment {r : List Char} (hhtml : html = true) (hn : Lexeme.htmlComment cs ≠ 0)
    (hx : Spacing html x) (hcs : cs.drop (Lexeme.htmlComment cs) = x ++ r)
    (hr : ∀ c ∈ r.head?, Lexeme.isSpace c = false) (hne : r ≠ []) :
    Spacing html (cs.take (Lexeme.htmlComment cs) ++ x) := by
  have hremark {mark t : List Char} (hmark : mark = ['<', '!', '-', '-'] ∨ mark = ['-', '-', '>'])
      (hcs : t.dropWhile (fun c => !Lexeme.isLineEnd c) = x ++ r) :
      Spacing html (mark ++ (t.takeWhile (fun c => !Lexeme.isLineEnd c) ++ x)) := by
    have hend (c : Char) (hc : (!Lexeme.isLineEnd c) = false) : Lexeme.isLineEnd c = true := by
      simpa using hc
    obtain ⟨c, y, rfl, hc, hy⟩ := hx.exists_cons hcs hr hne
      fun c hc => isSpace_of_lineEnd (.inl (hend c hc))
    refine .remark hhtml hmark (fun x hx => ?_) (hend c hc) hy
    simpa using List.mem_takeWhile_imp hx
  have htake (t : List Char) : t.take (t.takeWhile fun c => !Lexeme.isLineEnd c).length =
      t.takeWhile fun c => !Lexeme.isLineEnd c :=
    (List.prefix_iff_eq_take.mp (List.takeWhile_prefix _)).symm
  unfold Lexeme.htmlComment at hn hcs ⊢
  split at hn
  · rename_i t
    simp only [Nat.add_comm 4, List.drop_succ_cons, List.take_succ_cons] at hcs ⊢
    rw [drop_takeWhile] at hcs
    rw [htake]
    exact hremark (.inl rfl) hcs
  · rename_i t
    simp only [Nat.add_comm 3, List.drop_succ_cons, List.take_succ_cons] at hcs ⊢
    rw [drop_takeWhile] at hcs
    rw [htake]
    exact hremark (.inr rfl) hcs
  · exact absurd rfl hn

/-- What is passed over is white space and comments, and comments in the manner of HTML are among
them only if there are nodes of them. -/
theorem spacing_of_layout {fuel : Nat} {d : Draft source} (hfuel : d.rest.length < fuel)
    (hne : (d.layout html fuel).rest ≠ []) :
    ∃ (x : List Char) (ns : List (Node source)), d.rest = x ++ (d.layout html fuel).rest ∧
      (d.layout html fuel).nodes = ns.reverse ++ d.nodes ∧ (∀ n ∈ ns, Passed html n) ∧
      ∀ html', (∀ n ∈ ns, n.kind = .htmlComment → html' = true) → Spacing html' x := by
  induction fuel generalizing d with
  | zero => exact absurd hfuel (Nat.not_lt_zero _)
  | succ fuel ih =>
    have hhead := head?_layout html hfuel
    have hspaces : ∀ html', Spacing html' (d.rest.take (Lexeme.space d.rest)) := by
      intro html'
      have htake : d.rest.take (Lexeme.space d.rest) = d.rest.takeWhile Lexeme.isSpace :=
        (List.prefix_iff_eq_take.mp (List.takeWhile_prefix _)).symm
      rw [htake]
      exact .of_spaces fun c hc => List.mem_takeWhile_imp hc
    have hsplit := List.take_append_drop (Lexeme.space d.rest) d.rest
    rw [layout_succ] at hne hhead ⊢
    generalize hcs : d.rest.drop (Lexeme.space d.rest) = cs at hne hhead hsplit ⊢
    cases hpassed : passed html cs with
    | none =>
      simp only
      rw [← hcs] at hsplit
      exact ⟨_, [], hsplit.symm, rfl, List.forall_mem_nil _, fun html' _ => hspaces html'⟩
    | some p =>
      obtain ⟨k, n⟩ := p
      simp only [hpassed] at hne hhead ⊢
      generalize he : (⟨d.nodes, d.cursor.skip (Lexeme.space d.rest)⟩ : Draft source) = e
        at hne hhead ⊢
      have hrest : e.rest = cs := by
        rw [← he, ← hcs]
        rfl
      have hnodes : e.nodes = d.nodes := by rw [← he]
      have hfirst : Passed html (.leaf k e.cursor.mark (e.cursor.peek n) : Node source) :=
        passed_token (hrest ▸ hpassed)
      obtain ⟨x, ns, hx, hns, hall, hspacing⟩ := ih (d := e.token k n)
        (by rw [rest_token, hrest, ← hcs]; exact length_passed_lt (hcs ▸ hpassed) hfuel) hne
      rw [rest_token, hrest] at hx
      refine ⟨d.rest.take (Lexeme.space d.rest) ++ (cs.take n ++ x),
        .leaf k e.cursor.mark (e.cursor.peek n) :: ns, ?_, ?_, List.forall_mem_cons.mpr ⟨hfirst, hall⟩,
        fun html' hhtml => (hspaces html').append ?_⟩
      · rw [List.append_assoc, List.append_assoc, ← hx, List.take_append_drop, hsplit]
      · rw [hns, List.reverse_cons, List.append_assoc, ← hnodes]
        rfl
      · rw [List.forall_mem_cons] at hhtml
        have hx' := hspacing html' hhtml.2
        unfold passed at hpassed
        split at hpassed
        · rename_i hn
          obtain ⟨-, rfl⟩ := Prod.mk.inj (Option.some.inj hpassed)
          exact spacing_comment hn hx' hx hhead hne
        split at hpassed
        · rename_i hn
          obtain ⟨rfl, rfl⟩ := Prod.mk.inj (Option.some.inj hpassed)
          exact spacing_htmlComment (hhtml.1 rfl) hn.2 hx' hx hhead hne
        · cases hpassed

/-- What is passed over after an operand holds no comments in the manner of HTML. -/
theorem exists_spacing_gap {d : Draft source} (hne : d.gap.rest ≠ []) :
    ∃ (x : List Char) (ns : List (Node source)), d.rest = x ++ d.gap.rest ∧ Spacing false x ∧
      (∀ n ∈ ns, Passed false n) ∧ Leads d d.gap ns d.gap.rest := by
  obtain ⟨x, ns, hx, hns, hall, hspacing⟩ := spacing_of_layout (Nat.lt_succ_self _) hne
  refine ⟨x, ns, hx, hspacing false fun n hn hhtml => ?_, hall, hns, rfl⟩
  obtain ⟨k, m, s, rfl, rfl | ⟨hfalse, -⟩, -⟩ := hall n hn
  · cases hhtml
  · cases hfalse

/-- What is passed over before an operand. -/
theorem exists_spacing_space {d : Draft source} (hne : d.space.rest ≠ []) :
    ∃ (x : List Char) (ns : List (Node source)), d.rest = x ++ d.space.rest ∧
      (∀ html, (∀ n ∈ ns, n.kind = .htmlComment → html = true) → Spacing html x) ∧
      (∀ n ∈ ns, Passed true n) ∧ Leads d d.space ns d.space.rest := by
  obtain ⟨x, ns, hx, hns, hall, hspacing⟩ := spacing_of_layout (Nat.lt_succ_self _) hne
  exact ⟨x, ns, hx, hspacing, hall, hns, rfl⟩

end Workyard.Script
