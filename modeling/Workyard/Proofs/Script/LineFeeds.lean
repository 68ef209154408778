import Workyard.Proofs.Script.Lines
import Workyard.Proofs.Text.LineEnds

/-!
# Returns before line feeds

What a return before a line feed changes in how far a token reaches: a token within a line ends before
it, white space and comments go over it, and in quoted text it is a part of what is read.
-/

namespace Workyard.Script

set_option autoImplicit false

open Workyard.Text

variable {c : Char} {p t xs xs' ys ys' cs cs' : List Char}

/-- The second text is the first, which has no returns, with returns before some of its feeds. -/
inductive Returns : List Char → List Char → Prop
  | nil : Returns [] []
  | keep {c : Char} {cs cs' : List Char} (hc : c ≠ '\r') (h : Returns cs cs') :
      Returns (c :: cs) (c :: cs')
  | pair {cs cs' : List Char} (h : Returns cs cs') : Returns ('\n' :: cs) ('\r' :: '\n' :: cs')

theorem returns_of_withReturns (h : WithReturns cs cs') (hcs : '\r' ∉ cs) : Returns cs cs' := by
  induction h with
  | nil => exact .nil
  | keep c _ ih =>
    rw [List.mem_cons, not_or] at hcs
    exact .keep (Ne.symm hcs.1) (ih hcs.2)
  | pair _ ih => exact .pair (ih fun hmem => hcs (List.mem_cons_of_mem _ hmem))

namespace Returns

theorem length_le (h : Returns cs cs') : cs.length ≤ cs'.length := by
  induction h with
  | nil => exact Nat.le_refl 0
  | keep _ _ ih => exact Nat.succ_le_succ ih
  | pair _ ih => exact Nat.le_succ_of_le (Nat.succ_le_succ ih)

theorem append (h : Returns xs xs') (h' : Returns ys ys') : Returns (xs ++ ys) (xs' ++ ys') := by
  induction h with
  | nil => exact h'
  | keep hc _ ih => exact .keep hc ih
  | pair _ ih => exact .pair ih

theorem refl (h : '\r' ∉ cs) : Returns cs cs := by
  induction cs with
  | nil => exact .nil
  | cons c cs ih =>
    rw [List.mem_cons, not_or] at h
    exact .keep (Ne.symm h.1) (ih h.2)

theorem count_feed (h : Returns cs cs') : cs'.count '\n' = cs.count '\n' := by
  induction h with
  | nil => rfl
  | keep _ _ ih => rw [List.count_cons, List.count_cons, ih]
  | pair _ ih =>
    rw [List.count_cons_of_ne (by decide), List.count_cons_self, List.count_cons_self, ih]

/-- A character other than a feed stays what it is. -/
theorem cons (h : Returns (c :: cs) ys) (hc : c ≠ '\n') :
    c ≠ '\r' ∧ ∃ cs', ys = c :: cs' ∧ Returns cs cs' := by
  cases h with
  | keep hreturn h => exact ⟨hreturn, _, rfl, h⟩
  | pair => exact absurd rfl hc

theorem feed (h : Returns ('\n' :: cs) ys) :
    ∃ cs', (ys = '\n' :: cs' ∨ ys = '\r' :: '\n' :: cs') ∧ Returns cs cs' := by
  cases h with
  | keep _ h => exact ⟨_, .inl rfl, h⟩
  | pair h => exact ⟨_, .inr rfl, h⟩

theorem eq_nil (h : Returns [] ys) : ys = [] := by
  cases h
  rfl

/-- The two texts begin with the same line. -/
theorem exists_line (h : Returns cs cs') :
    ∃ p t t', cs = p ++ t ∧ cs' = p ++ t' ∧ '\r' ∉ p ∧ EndsLine t ∧ EndsLine t' ∧ Returns t t' := by
  induction h with
  | nil => exact ⟨[], [], [], rfl, rfl, List.not_mem_nil, nofun, nofun, .nil⟩
  | @keep c cs cs' hc h ih =>
    by_cases hfeed : c = '\n'
    · subst hfeed
      refine ⟨[], _, _, rfl, rfl, List.not_mem_nil, ?_, ?_, .keep hc h⟩
      · rintro _ ⟨⟩
        exact .inl rfl
      · rintro _ ⟨⟩
        exact .inl rfl
    · obtain ⟨p, t, t', rfl, rfl, hp, ht, ht', hrest⟩ := ih
      refine ⟨c :: p, t, t', rfl, rfl, ?_, ht, ht', hrest⟩
      rw [List.mem_cons, not_or]
      exact ⟨Ne.symm hc, hp⟩
  | pair h =>
    refine ⟨[], _, _, rfl, rfl, List.not_mem_nil, ?_, ?_, .pair h⟩
    · rintro _ ⟨⟩
      exact .inl rfl
    · rintro _ ⟨⟩
      exact .inr rfl

theorem eq_of_bounded {α : Type} {f : List Char → α} (h : Returns cs cs') (hf : Bounded f) :
    f cs' = f cs := by
  obtain ⟨p, t, t', rfl, rfl, -, ht, ht', -⟩ := h.exists_line
  rw [hf p t ht, hf p t' ht']

/-- What both texts begin with is taken from both. -/
theorem split {t' : List Char} {n : Nat} (h : Returns t t') (hp : '\r' ∉ p) (hn : n ≤ p.length) :
    (p ++ t').take n = (p ++ t).take n ∧ Returns ((p ++ t).drop n) ((p ++ t').drop n) := by
  rw [List.take_append_of_le_length hn, List.take_append_of_le_length hn,
    List.drop_append_of_le_length hn, List.drop_append_of_le_length hn]
  exact ⟨rfl, .append (.refl fun hmem => hp (List.mem_of_mem_drop hmem)) h⟩

/-- A token within a line is the same in both texts. -/
theorem token {f : List Char → Nat} (h : Returns cs cs') (hf : InLine f) :
    f cs' = f cs ∧ cs'.take (f cs) = cs.take (f cs) ∧ Returns (cs.drop (f cs)) (cs'.drop (f cs)) := by
  refine ⟨h.eq_of_bounded hf.bounded, ?_⟩
  obtain ⟨p, t, t', rfl, rfl, hp, ht, ht', hrest⟩ := h.exists_line
  rw [hf.bounded p t ht]
  exact hrest.split hp (hf.le p)

end Returns

/-! ### White space and comments -/

theorem drop_takeWhile (f : Char → Bool) (cs : List Char) :
    cs.drop (cs.takeWhile f).length = cs.dropWhile f := by
  have hsplit : cs.takeWhile f ++ cs.dropWhile f = cs := List.takeWhile_append_dropWhile
  have hdrop : (cs.takeWhile f ++ cs.dropWhile f).drop (cs.takeWhile f).length = cs.dropWhile f :=
    List.drop_left
  rwa [hsplit] at hdrop

theorem blockCommentTail_cons (c : Char) (cs : List Char) : Lexeme.blockCommentTail (c :: cs) =
    if c = '*' ∧ (cs.head? == some '/') = true then some 2
    else (Lexeme.blockCommentTail cs).map (· + 1) := by
  rw [Lexeme.blockCommentTail.eq_def]
  split
  · rename_i heq
    obtain ⟨rfl, rfl⟩ := List.cons.inj heq
    rfl
  · rename_i hne heq
    obtain ⟨rfl, rfl⟩ := List.cons.inj heq
    rw [if_neg]
    rintro ⟨rfl, hhead⟩
    obtain ⟨cs', rfl⟩ := List.head?_eq_some_iff.mp (beq_iff_eq.mp hhead)
    exact hne cs' rfl rfl
  · rename_i heq
    cases heq

theorem comment_slash (c : Char) (cs : List Char) : Lexeme.comment ('/' :: c :: cs) =
    if c = '/' then 2 + (cs.takeWhile fun c => !(Lexeme.isLineEnd c || c == '\r')).length
    else if c = '*' then ((Lexeme.blockCommentTail cs).map (· + 2)).getD 0 else 0 := by
  rw [Lexeme.comment.eq_def]
  split
  · rename_i heq
    obtain ⟨rfl, rfl⟩ := List.cons.inj (List.cons.inj heq).2
    rfl
  · rename_i heq
    obtain ⟨rfl, rfl⟩ := List.cons.inj (List.cons.inj heq).2
    rfl
  · rename_i hline hblock
    rw [if_neg, if_neg]
    · rintro rfl
      exact hblock cs rfl
    · rintro rfl
      exact hline cs rfl

theorem comment_of_ne (h : c ≠ '/') (cs : List Char) : Lexeme.comment (c :: cs) = 0 := by
  unfold Lexeme.comment
  split
  · rename_i heq
    exact absurd (List.cons.inj heq).1 h
  · rename_i heq
    exact absurd (List.cons.inj heq).1 h
  · rfl

theorem htmlComment_of_not (hopen : Lexeme.startsWith "<!--" cs = false)
    (hclose : Lexeme.startsWith "-->" cs = false) : Lexeme.htmlComment cs = 0 := by
  unfold Lexeme.htmlComment
  split
  · cases hopen
  · cases hclose
  · rfl

theorem exists_of_startsWith {s : String} (h : Lexeme.startsWith s cs = true) :
    ∃ r, cs = s.toList ++ r := by
  obtain ⟨r, hr⟩ := List.isPrefixOf_iff_prefix.mp h
  exact ⟨r, hr.symm⟩

theorem rel_map {r r' : Nat → Nat → Prop} {f g : Nat → Nat} {x y : Option Nat} (h : Option.Rel r x y)
    (hr : ∀ n n', r n n' → r' (f n) (g n')) : Option.Rel r' (x.map f) (y.map g) := by
  cases h with
  | none => exact .none
  | some h => exact .some (hr _ _ h)

namespace Returns

/-- White space goes over returns and feeds. -/
theorem space (h : Returns cs cs') :
    Returns (cs.dropWhile Lexeme.isSpace) (cs'.dropWhile Lexeme.isSpace) := by
  induction h with
  | nil => exact .nil
  | @keep c cs cs' hc h ih =>
    rw [List.dropWhile_cons, List.dropWhile_cons]
    split
    · exact ih
    · exact .keep hc h
  | pair _ ih => exact ih

theorem drop_space (h : Returns cs cs') :
    Returns (cs.drop (Lexeme.space cs)) (cs'.drop (Lexeme.space cs')) := by
  rw [Lexeme.space, Lexeme.space, drop_takeWhile, drop_takeWhile]
  exact h.space

/-- What both texts begin with can be dropped. -/
theorem drop_startsWith {s : String} (h : Returns cs cs') (hs : '\n' ∉ s.toList)
    (hstarts : Lexeme.startsWith s cs = true) :
    Returns (cs.drop s.toList.length) (cs'.drop s.toList.length) := by
  have hdrop (ps cs cs' : List Char) (hps : '\n' ∉ ps) (h : Returns cs cs')
      (hbegins : ps.isPrefixOf cs = true) : Returns (cs.drop ps.length) (cs'.drop ps.length) := by
    induction ps generalizing cs cs' with
    | nil => exact h
    | cons x ps ih =>
      rw [List.mem_cons, not_or] at hps
      cases cs with
      | nil => cases hbegins
      | cons c cs =>
        rw [List.isPrefixOf, Bool.and_eq_true_iff, beq_iff_eq] at hbegins
        obtain ⟨rfl, hbegins⟩ := hbegins
        obtain ⟨-, cs', rfl, hrest⟩ := h.cons (Ne.symm hps.1)
        exact ih cs cs' hps.2 hrest hbegins
  exact hdrop s.toList cs cs' hs h hstarts

theorem blockCommentTail (h : Returns cs cs') :
    Option.Rel (fun n n' => Returns (cs.drop n) (cs'.drop n')) (Lexeme.blockCommentTail cs)
      (Lexeme.blockCommentTail cs') := by
  induction h with
  | nil => exact .none
  | @keep c cs cs' hc h ih =>
    rw [blockCommentTail_cons, blockCommentTail_cons, h.eq_of_bounded (bounded_head '/' (by decide))]
    split
    · rename_i hend
      obtain ⟨cs, rfl⟩ := List.head?_eq_some_iff.mp (beq_iff_eq.mp hend.2)
      obtain ⟨-, cs', rfl, hrest⟩ := h.cons (by decide)
      exact .some hrest
    · exact rel_map ih fun _ _ hdrop => hdrop
  | pair _ ih =>
    have hnone (cs : List Char) : Lexeme.blockCommentTail ('\n' :: cs) =
        (Lexeme.blockCommentTail cs).map (· + 1) := by
      rw [blockCommentTail_cons, if_neg]
      rintro ⟨⟨⟩, -⟩
    rw [hnone, blockCommentTail_cons '\r', if_neg (by rintro ⟨⟨⟩, -⟩), hnone,
      Option.map_map]
    exact rel_map ih fun _ _ hdrop => hdrop

/-- Where a comment begins in one text, one begins in the other, and the same comes after both. -/
theorem comment (h : Returns cs cs') : (Lexeme.comment cs' = 0 ↔ Lexeme.comment cs = 0) ∧
    Returns (cs.drop (Lexeme.comment cs)) (cs'.drop (Lexeme.comment cs')) := by
  have hnone (hcs : Lexeme.comment cs = 0) (hcs' : Lexeme.comment cs' = 0) :
      (Lexeme.comment cs' = 0 ↔ Lexeme.comment cs = 0) ∧
        Returns (cs.drop (Lexeme.comment cs)) (cs'.drop (Lexeme.comment cs')) := by
    rw [hcs, hcs']
    exact ⟨Iff.rfl, h⟩
  cases h with
  | nil => exact ⟨Iff.rfl, .nil⟩
  | pair => exact hnone rfl rfl
  | @keep c cs cs' hc hrest =>
    by_cases hslash : c = '/'
    · subst hslash
      cases hrest with
      | nil => exact hnone rfl rfl
      | pair => exact hnone rfl rfl
      | @keep d cs cs' hd hrest =>
        rw [comment_slash, comment_slash]
        by_cases hline : d = '/'
        · obtain ⟨hlength, -, hdrop⟩ := hrest.token (f := fun cs =>
            (cs.takeWhile fun c => !(Lexeme.isLineEnd c || c == '\r')).length)
            (inLine_takeWhile (by decide))
          rw [if_pos hline, if_pos hline, hlength, Nat.add_comm 2]
          exact ⟨Iff.rfl, hdrop⟩
        by_cases hblock : d = '*'
        · rw [if_neg hline, if_pos hblock, if_neg hline, if_pos hblock]
          have htail := hrest.blockCommentTail
          generalize Lexeme.blockCommentTail cs = x at htail ⊢
          generalize Lexeme.blockCommentTail cs' = y at htail ⊢
          cases htail with
          | none => exact ⟨Iff.rfl, .keep hc (.keep hd hrest)⟩
          | some hdrop => exact ⟨iff_of_false (Nat.succ_ne_zero _) (Nat.succ_ne_zero _), hdrop⟩
        · rw [if_neg hline, if_neg hblock, if_neg hline, if_neg hblock]
          exact ⟨Iff.rfl, .keep hc (.keep hd hrest)⟩
    · exact hnone (comment_of_ne hslash _) (comment_of_ne hslash _)

/-- A comment in the manner of HTML takes the return, and leaves the feed. -/
theorem htmlLine (h : Returns cs cs') :
    Returns (cs.dropWhile fun c => !Lexeme.isLineEnd c) (cs'.dropWhile fun c => !Lexeme.isLineEnd c) := by
  induction h with
  | nil => exact .nil
  | @keep c cs cs' hc h ih =>
    rw [List.dropWhile_cons, List.dropWhile_cons]
    split
    · exact ih
    · exact .keep hc h
  | pair h => exact .keep (by decide) h

theorem htmlComment (h : Returns cs cs') : (Lexeme.htmlComment cs' = 0 ↔ Lexeme.htmlComment cs = 0) ∧
    Returns (cs.drop (Lexeme.htmlComment cs)) (cs'.drop (Lexeme.htmlComment cs')) := by
  have hopen := h.eq_of_bounded (bounded_startsWith (s := "<!--") (by decide))
  have hclose := h.eq_of_bounded (bounded_startsWith (s := "-->") (by decide))
  -- What begins a comment is as long in both texts, and what follows it on its line is passed over.
  have hline {s : String} {xs xs' : List Char} (hs : s ≠ "") (hxs : Returns xs xs') :
      (s.toList.length + (xs'.takeWhile fun c => !Lexeme.isLineEnd c).length = 0 ↔
        s.toList.length + (xs.takeWhile fun c => !Lexeme.isLineEnd c).length = 0) ∧
      Returns
        ((s.toList ++ xs).drop (s.toList.length + (xs.takeWhile fun c => !Lexeme.isLineEnd c).length))
        ((s.toList ++ xs').drop
          (s.toList.length + (xs'.takeWhile fun c => !Lexeme.isLineEnd c).length)) := by
    have hpos : s.toList.length ≠ 0 := by simpa using hs
    rw [List.drop_length_add_append, List.drop_length_add_append, drop_takeWhile, drop_takeWhile]
    exact ⟨iff_of_false (by omega) (by omega), hxs.htmlLine⟩
  cases hstart : Lexeme.startsWith "<!--" cs with
  | true =>
    have hdrop := h.drop_startsWith (by decide) hstart
    obtain ⟨xs, rfl⟩ := exists_of_startsWith hstart
    obtain ⟨xs', rfl⟩ := exists_of_startsWith (hopen.trans hstart)
    rw [List.drop_left, List.drop_left] at hdrop
    exact hline (s := "<!--") (by decide) hdrop
  | false =>
    cases hend : Lexeme.startsWith "-->" cs with
    | true =>
      have hdrop := h.drop_startsWith (by decide) hend
      obtain ⟨xs, rfl⟩ := exists_of_startsWith hend
      obtain ⟨xs', rfl⟩ := exists_of_startsWith (hclose.trans hend)
      rw [List.drop_left, List.drop_left] at hdrop
      exact hline (s := "-->") (by decide) hdrop
    | false =>
      rw [htmlComment_of_not hstart hend,
        htmlComment_of_not (hopen.trans hstart) (hclose.trans hend)]
      exact ⟨Iff.rfl, h⟩

end Returns

/-! ### Quoted text -/

theorem templateFragment_cons (c : Char) (cs : List Char) : Lexeme.templateFragment (c :: cs) =
    if c = '$' ∧ (cs.head? == some '\x7b') = true then 0
    else if c == '\x60' || c == '\\' then 0 else 1 + Lexeme.templateFragment cs := by
  rw [Lexeme.templateFragment.eq_def]
  split
  · rename_i heq
    obtain ⟨rfl, rfl⟩ := List.cons.inj heq
    rfl
  · rename_i hne heq
    obtain ⟨rfl, rfl⟩ := List.cons.inj heq
    refine (if_neg ?_).symm
    rintro ⟨rfl, hhead⟩
    obtain ⟨cs', rfl⟩ := List.head?_eq_some_iff.mp (beq_iff_eq.mp hhead)
    exact hne cs' rfl rfl
  · rename_i heq
    cases heq

namespace Returns

/-- Two texts that are the same unless both hold a feed. -/
def Akin (xs xs' : List Char) : Prop :=
  xs' = xs ∨ '\n' ∈ xs ∧ '\n' ∈ xs'

theorem templateFragment (h : Returns cs cs') :
    (Lexeme.templateFragment cs' = 0 ↔ Lexeme.templateFragment cs = 0) ∧
      Akin (cs.take (Lexeme.templateFragment cs)) (cs'.take (Lexeme.templateFragment cs')) ∧
      Returns (cs.drop (Lexeme.templateFragment cs)) (cs'.drop (Lexeme.templateFragment cs')) := by
  induction h with
  | nil => exact ⟨Iff.rfl, .inl rfl, .nil⟩
  | @keep c cs cs' hc h ih =>
    rw [templateFragment_cons, templateFragment_cons,
      h.eq_of_bounded (bounded_head '\x7b' (by decide))]
    split
    · exact ⟨Iff.rfl, .inl rfl, .keep hc h⟩
    split
    · exact ⟨Iff.rfl, .inl rfl, .keep hc h⟩
    · obtain ⟨-, hakin, hdrop⟩ := ih
      rw [Nat.add_comm 1, Nat.add_comm 1]
      refine ⟨iff_of_false (Nat.succ_ne_zero _) (Nat.succ_ne_zero _), ?_, hdrop⟩
      rcases hakin with heq | ⟨hmem, hmem'⟩
      · exact .inl (congrArg (c :: ·) heq)
      · exact .inr ⟨List.mem_cons_of_mem c hmem, List.mem_cons_of_mem c hmem'⟩
  | @pair cs cs' h ih =>
    have hfeed (cs : List Char) : Lexeme.templateFragment ('\n' :: cs) =
        Lexeme.templateFragment cs + 1 := by
      rw [templateFragment_cons, if_neg (by rintro ⟨⟨⟩, -⟩), if_neg (by decide), Nat.add_comm]
    have hreturn : Lexeme.templateFragment ('\r' :: '\n' :: cs') =
        Lexeme.templateFragment cs' + 1 + 1 := by
      rw [templateFragment_cons, if_neg (by rintro ⟨⟨⟩, -⟩), if_neg (by decide), hfeed, Nat.add_comm]
    rw [hfeed, hreturn]
    refine ⟨iff_of_false (Nat.succ_ne_zero _) (Nat.succ_ne_zero _), .inr ⟨?_, ?_⟩, ih.2.2⟩
    · exact List.mem_cons_self
    · exact List.mem_cons_of_mem _ List.mem_cons_self

/-- The end of a line that is escaped may be written in another way. -/
def Escaped (xs xs' : List Char) : Prop :=
  xs' = xs ∨ xs = ['\\', '\n'] ∧ xs' = ['\\', '\r', '\n']

/-- An escape is the same in both texts, unless it takes a feed. -/
theorem escape (h : Returns cs cs') : cs.take (Lexeme.escape cs) = ['\\', '?', '\n'] ∨
    (Lexeme.escape cs' = 0 ↔ Lexeme.escape cs = 0) ∧
      Escaped (cs.take (Lexeme.escape cs)) (cs'.take (Lexeme.escape cs')) ∧
      Returns (cs.drop (Lexeme.escape cs)) (cs'.drop (Lexeme.escape cs')) := by
  -- An escape of the same length is the same if it does not go over the line.
  have hsame {n : Nat} (hn : Lexeme.escape cs = n) (hn' : Lexeme.escape cs' = n)
      (htaken : cs'.take n = cs.take n ∧ Returns (cs.drop n) (cs'.drop n)) :
      (Lexeme.escape cs' = 0 ↔ Lexeme.escape cs = 0) ∧
        Escaped (cs.take (Lexeme.escape cs)) (cs'.take (Lexeme.escape cs')) ∧
        Returns (cs.drop (Lexeme.escape cs)) (cs'.drop (Lexeme.escape cs')) := by
    rw [hn, hn']
    exact ⟨Iff.rfl, .inl htaken.1, htaken.2⟩
  have hhead := h.eq_of_bounded (bounded_head '\\' (by decide))
  cases hback : cs.head? == some '\\' with
  | false =>
    exact .inr (hsame (escape_of_ne hback) (escape_of_ne (hhead.trans hback)) ⟨rfl, h⟩)
  | true =>
    obtain ⟨r, rfl⟩ := List.head?_eq_some_iff.mp (beq_iff_eq.mp hback)
    obtain ⟨-, r', rfl, hrest⟩ := h.cons (by decide)
    cases hrest with
    | nil => exact .inr ⟨Iff.rfl, .inl rfl, h⟩
    | pair hrest => exact .inr ⟨iff_of_false nofun nofun, .inr ⟨rfl, rfl⟩, hrest⟩
    | @keep c q q' hc hrest =>
      by_cases hfeed : c = '\n'
      · subst hfeed
        exact .inr (hsame rfl rfl ⟨rfl, hrest⟩)
      by_cases hmark : c = '?'
      · subst hmark
        have hnext (d : Char) (q : List Char) : Lexeme.escape ('\\' :: '?' :: d :: q) =
            if Lexeme.isLineEnd d then 3 else 2 := rfl
        cases hrest with
        | nil => exact .inr (hsame rfl rfl ⟨rfl, .nil⟩)
        | pair => exact .inl rfl
        | @keep d q q' hd hrest =>
          by_cases hfeed : d = '\n'
          · subst hfeed
            exact .inl rfl
          cases hend : Lexeme.isLineEnd d with
          | true =>
            exact .inr (hsame (n := 3) (by rw [hnext, hend]; rfl) (by rw [hnext, hend]; rfl)
              ⟨rfl, hrest⟩)
          | false =>
            exact .inr (hsame (n := 2) (by rw [hnext, hend]; rfl) (by rw [hnext, hend]; rfl)
              ⟨rfl, .keep hd hrest⟩)
      · obtain ⟨p, t, t', rfl, rfl, hp, ht, ht', hends⟩ := hrest.exists_line
        have hplain : c ∉ ['\n', '\r', '?'] := by simp [hfeed, hc, hmark]
        obtain ⟨hescape, hle⟩ := escape_line (p := p) hplain ht
        have hescape' := (escape_line (p := p) hplain ht').1
        have hreturn : '\r' ∉ '\\' :: c :: p := by simp [hp, Ne.symm hc]
        exact .inr (hsame hescape hescape'
          (hends.split (p := '\\' :: c :: p) hreturn hle))

end Returns

end Workyard.Script
