import Workyard.Proofs.Options.Strings
import Workyard.Proofs.Script.Standalone
import Workyard.Proofs.Script.TwinReading

/-!
# Quoted texts on their own

What is read as a quoted text at one place is read as the same text wherever it stands. Its closing
quote is a part of it, so that nothing behind it is looked at.
-/

namespace Workyard.Options

set_option autoImplicit false

open Script Script.Node Script.Draft

variable {source source' : List Char} {d e : Draft source} {q : Quote} {fuel : Nat}
  {ns ms : List (Node source)} {c : Char} {cs run rest rest' : List Char}

/-- The nodes of a quoted text with these pieces. -/
structure Makes (ps : List Piece) (ns : List (Node source)) : Prop where
  leaves : ∀ n ∈ ns, n.IsLeafOf Kind.isQuotedPart
  pieces : piecesOf ns = ps

/-- A text behind an opening quote closes the quoted text, whatever comes after it. -/
structure Closed (q : Quote) (cs : List Char) (ps : List Piece) : Prop where
  ne : cs ≠ []
  tail : ∀ {source : List Char} (d : Draft source) (rest : List Char) (fuel : Nat),
    cs.length ≤ fuel → d.rest = cs ++ rest →
      ∃ ns, Makes ps ns ∧ Leads d (q.tail fuel d) ns rest

/-! ### Runs and escapes -/

theorem Makes.append {ps ps' : List Piece} (h : Makes ps ns) (h' : Makes ps' ms) :
    Makes (ps ++ ps') (ns ++ ms) where
  leaves := List.forall_mem_append.mpr ⟨h.leaves, h'.leaves⟩
  pieces := by rw [piecesOf_append, h.pieces, h'.pieces]

/-- The pieces of a run of characters that stand for themselves. -/
def runPieces (run : List Char) : List Piece :=
  if run = [] then [] else [.raw run]

theorem makes_fragment (m : Text.Mark source) (run : List Char) :
    Makes [.raw run] [leaf .fragment m (String.ofList run)] := by
  refine ⟨List.forall_mem_singleton.mpr ⟨_, m, _, rfl, rfl⟩, ?_⟩
  simp [piecesOf, kind, text]

theorem leads_run (hd : d.rest = run ++ rest) :
    ∃ ns, Makes (runPieces run) ns ∧ Leads d (past run.length d) ns rest := by
  cases run with
  | nil => exact ⟨[], ⟨List.forall_mem_nil _, rfl⟩, ⟨rfl, hd⟩⟩
  | cons c run => exact ⟨_, makes_fragment _ _, leads_token .fragment hd⟩

theorem makes_sign (m : Text.Mark source) (s : String) : Makes [] [leaf .punctuation m s] :=
  ⟨List.forall_mem_singleton.mpr ⟨_, m, s, rfl, rfl⟩, rfl⟩

theorem makes_escape (m : Text.Mark source) (e : List Char) :
    Makes [escaped (e.drop 1)] [leaf .escape m (String.ofList e)] := by
  refine ⟨List.forall_mem_singleton.mpr ⟨_, m, _, rfl, rfl⟩, ?_⟩
  simp [piecesOf, kind, text]

/-- Where characters of a kind end does not depend on what stands behind the one that ends them. -/
theorem takeWhile_change {f : Char → Bool} (h : ((run ++ c :: rest).takeWhile f).length = run.length)
    (rest' : List Char) : ((run ++ c :: rest').takeWhile f).length = run.length := by
  have hrun : (run ++ c :: rest).takeWhile f = run := by
    have htake := List.prefix_iff_eq_take.mp (List.takeWhile_prefix (l := run ++ c :: rest) f)
    rw [h, List.take_left] at htake
    exact htake
  have hall : ∀ x ∈ run, f x = true := fun x hx => List.mem_takeWhile_imp (hrun ▸ hx)
  have hc : f c = false := by
    rw [List.takeWhile_append_of_pos hall] at hrun
    have hnil := List.append_right_eq_self.mp hrun
    by_contra hc
    rw [List.takeWhile_cons_of_pos (eq_true_of_ne_false hc)] at hnil
    cases hnil
  rw [List.takeWhile_append_of_pos hall, List.takeWhile_cons, hc, if_neg Bool.false_ne_true,
    List.append_nil]

theorem templateFragment_change (hc : c = '\x60' ∨ c = '\\')
    (h : Lexeme.templateFragment (run ++ c :: rest) = run.length) (rest' : List Char) :
    Lexeme.templateFragment (run ++ c :: rest') = run.length := by
  induction run with
  | nil => rcases hc with rfl | rfl <;> rfl
  | cons x run ih =>
    have hhead : ((run ++ c :: rest').head? == some '\x7b') = ((run ++ c :: rest).head? == some '\x7b') := by
      cases run <;> rfl
    rw [List.cons_append, templateFragment_cons] at h ⊢
    rw [hhead]
    split at h
    · cases h
    rename_i hopen
    rw [if_neg hopen]
    split at h
    · cases h
    rename_i hplain
    rw [if_neg hplain]
    rw [List.length_cons, Nat.add_comm 1, Nat.add_right_cancel_iff] at h ⊢
    exact ih h

/-- Where a run ends does not depend on what stands behind the character that ends it. -/
theorem fragment_change (hc : q = .backtick → c = '\x60' ∨ c = '\\')
    (h : q.fragment (run ++ c :: rest) = run.length) (rest' : List Char) :
    q.fragment (run ++ c :: rest') = run.length := by
  cases q with
  | backtick => exact templateFragment_change (hc rfl) h rest'
  | single => exact takeWhile_change h rest'
  | double => exact takeWhile_change h rest'

/-- No escape is a backslash alone. -/
theorem escape_ne_one (cs : List Char) : Lexeme.escape ('\\' :: cs) ≠ 1 := by
  cases cs with
  | nil => exact Nat.zero_ne_one
  | cons c cs =>
    rw [escape_cons]
    split
    · intro h
      obtain ⟨s, t, -, hs, hlength⟩ := exists_unicodeEscape (by rw [h]; exact Nat.one_ne_zero)
      rw [h] at hlength
      cases hs <;> simp at hlength
    split
    · unfold byteEscape
      split
      · split <;> omega
      · exact Nat.zero_ne_one
    split
    · rename_i hoctal
      rw [List.take_succ_cons, List.takeWhile_cons_of_pos hoctal, List.length_cons]
      omega
    · split <;> omega

theorem escape_le (cs : List Char) : Lexeme.escape ('\\' :: cs) ≤ cs.length + 1 := by
  cases cs with
  | nil => exact Nat.zero_le _
  | cons c cs =>
    have hunicode := unicodeEscape_le ('\\' :: c :: cs)
    have hoctal : (((c :: cs).take 3).takeWhile Lexeme.isOctal).length ≤ cs.length + 1 :=
      ((List.takeWhile_prefix _).length_le).trans (List.length_take_le' _ _)
    simp only [List.length_cons] at hunicode ⊢
    rw [escape_cons]
    split
    · exact hunicode
    split
    · exact byteEscape_le cs
    split
    · omega
    split
    · rename_i hend
      cases cs with
      | nil => simp at hend
      | cons x cs => exact Nat.le_add_left 3 _
    · omega

theorem byteEscape_change {es : List Char} (h : byteEscape (es ++ c :: rest) = es.length + 2)
    (rest' : List Char) : byteEscape (es ++ c :: rest') = es.length + 2 := by
  rcases es with _ | ⟨a, _ | ⟨b, es⟩⟩
  · exfalso
    unfold byteEscape at h
    split at h
    · split at h <;> cases h
    · cases h
  · exfalso
    rw [List.singleton_append, byteEscape] at h
    split at h <;> cases h
  · exact h

theorem octal_change {es : List Char}
    (h : (((es ++ c :: rest).take 3).takeWhile Lexeme.isOctal).length = es.length) (rest' : List Char) :
    (((es ++ c :: rest').take 3).takeWhile Lexeme.isOctal).length = es.length := by
  by_cases hlong : 3 ≤ es.length
  · rw [List.take_append_of_le_length hlong] at h ⊢
    exact h
  · obtain ⟨k, hk⟩ : ∃ k, 3 = es.length + (k + 1) := ⟨3 - es.length - 1, by omega⟩
    rw [hk, List.take_length_add_append, List.take_succ_cons] at h ⊢
    exact takeWhile_change h _

/-- How far an escape reaches does not depend on what stands behind the next character. -/
theorem escape_change {es : List Char} (h : Lexeme.escape ('\\' :: (es ++ c :: rest)) = es.length + 1)
    (rest' : List Char) : Lexeme.escape ('\\' :: (es ++ c :: rest')) = es.length + 1 := by
  cases es with
  | nil => exact absurd h (escape_ne_one _)
  | cons x es =>
    rw [List.cons_append, escape_cons] at h ⊢
    split at h
    · rename_i hx
      have hunicode : Lexeme.unicodeEscape (('\\' :: x :: es) ++ c :: rest) = es.length + 2 := h
      have hsame := unicodeEscape_of_le (by rw [hunicode]; exact Nat.succ_ne_zero _)
        (by rw [hunicode]; exact Nat.le_refl _)
      rw [hunicode] at hsame
      rw [if_pos hx]
      exact (unicodeEscape_append (by rw [hsame]; exact Nat.succ_ne_zero _) (c :: rest')).trans hsame
    rename_i hu
    rw [if_neg hu]
    split at h
    · rename_i hx
      rw [if_pos hx]
      exact byteEscape_change h rest'
    rename_i hx
    rw [if_neg hx]
    split at h
    · rename_i hoctal
      have hlength : (((x :: es ++ c :: rest).take 3).takeWhile Lexeme.isOctal).length =
          (x :: es).length := by
        rw [List.length_cons] at h
        exact Nat.add_left_cancel (h.trans (Nat.add_comm _ _))
      have hchange := octal_change hlength rest'
      rw [List.cons_append] at hchange
      rw [if_pos hoctal, hchange, Nat.add_comm]
    rename_i hoctal
    rw [if_neg hoctal]
    have hhead : (es ++ c :: rest').head? = (es ++ c :: rest).head? := by
      cases es <;> rfl
    rw [hhead]
    exact h

/-! ### The three ways to go on -/

theorem tail_of_quote (hq : q ≠ .backtick) :
    q.tail (fuel + 1) d = quotedStep q.char fuel (past (q.fragment d.rest) d) := by
  cases q with
  | backtick => exact absurd rfl hq
  | single => exact quotedTail_succ d
  | double => exact quotedTail_succ d

theorem tail_blanks (hq : q ≠ .backtick) (hd : (past (q.fragment d.rest) d).rest = c :: cs)
    (hc : c ≠ q.char ∧ c ≠ '\\')
    (hgap : (past (q.fragment d.rest) d).gap.rest.head? = some q.char) :
    q.tail (fuel + 1) d = ((past (q.fragment d.rest) d).token .fragment
      ((past (q.fragment d.rest) d).rest.length - (past (q.fragment d.rest) d).gap.rest.length)).sign 1 := by
  rw [tail_of_quote hq, quotedStep_cons hd hc.2, beq_eq_false_iff_ne.mpr hc.1,
    if_neg Bool.false_ne_true, hgap, if_pos (beq_self_eq_true _)]

theorem leads_unique {r r' : List Char} (h : Leads d e ns r) (h' : Leads d e ms r') :
    ns = ms ∧ r = r' := by
  have hnodes := h.nodes_eq.symm.trans h'.nodes_eq
  exact ⟨List.reverse_injective (List.append_cancel_right hnodes), h.rest_eq.symm.trans h'.rest_eq⟩

theorem exists_leads {P : List (Node source) → Prop} (h : Adds P d e) : ∃ ns, Leads d e ns e.rest := by
  obtain ⟨added, hadded, -⟩ := h
  exact ⟨added.reverse, by rw [hadded, List.reverse_reverse], rfl⟩

theorem adds_tail (q : Quote) (fuel : Nat) (d : Draft source) : Adds Quoted d (q.tail fuel d) := by
  cases q with
  | backtick => exact (reads fuel).templateTail d
  | single => exact adds_quotedTail _ fuel d
  | double => exact adds_quotedTail _ fuel d

theorem not_isQuotedPart {k : Kind} (hk : k.isQuotedPart = false) (m : Text.Mark source) (s : String) :
    ¬ (leaf k m s).IsLeafOf Kind.isQuotedPart := by
  rintro ⟨k', m', s', heq, hk'⟩
  cases heq
  exact Bool.false_ne_true (hk.symm.trans hk')

theorem templateFragment_le (cs : List Char) : Lexeme.templateFragment cs ≤ cs.length := by
  induction cs with
  | nil => exact Nat.le_refl 0
  | cons c cs ih =>
    rw [templateFragment_cons, List.length_cons]
    split
    · exact Nat.zero_le _
    split
    · exact Nat.zero_le _
    · omega

theorem fragment_le (q : Quote) (cs : List Char) : q.fragment cs ≤ cs.length := by
  cases q with
  | backtick => exact templateFragment_le cs
  | single => exact (inLine_fragment _).le cs
  | double => exact (inLine_fragment _).le cs

/-- The characters ahead that stand for themselves, and what comes after them. -/
theorem exists_run (q : Quote) (d : Draft source) : ∃ run ns, d.rest = run ++ d.rest.drop run.length ∧
    q.fragment d.rest = run.length ∧ Makes (runPieces run) ns ∧
    Leads d (past (q.fragment d.rest) d) ns (d.rest.drop run.length) := by
  have hlength : (d.rest.take (q.fragment d.rest)).length = q.fragment d.rest :=
    List.length_take_of_le (fragment_le q d.rest)
  have hsplit : d.rest = d.rest.take (q.fragment d.rest) ++
      d.rest.drop (d.rest.take (q.fragment d.rest)).length := by
    rw [hlength]
    exact (List.take_append_drop _ _).symm
  obtain ⟨ns, hns, hleads⟩ := leads_run hsplit
  rw [hlength] at hleads
  exact ⟨_, ns, hsplit, hlength.symm, hns, by rwa [hlength]⟩

/-- The rest of a quoted text goes on with its closing quote, with an escape, or with white space
before its closing quote. -/
theorem tail_cases (h : Leads d (q.tail (fuel + 1) d) ns rest)
    (hns : ∀ n ∈ ns, n.IsLeafOf Kind.isQuotedPart) :
    (∃ t, (past (q.fragment d.rest) d).rest = q.char :: t) ∨
      (∃ t, (past (q.fragment d.rest) d).rest = '\\' :: t ∧ Lexeme.escape ('\\' :: t) ≠ 0) ∨
      (q ≠ .backtick ∧ ∃ c t, (past (q.fragment d.rest) d).rest = c :: t ∧ (c ≠ q.char ∧ c ≠ '\\') ∧
        (past (q.fragment d.rest) d).gap.rest.head? = some q.char) := by
  obtain ⟨run, ms, -, -, -, hrun⟩ := exists_run q d
  -- Whatever is read behind the run is a part of the quoted text.
  have hpart {n : Node source} (added : List (Node source))
      (hn : (q.tail (fuel + 1) d).nodes = added ++ n :: (past (q.fragment d.rest) d).nodes) :
      n.IsLeafOf Kind.isQuotedPart := by
    have hnodes : Leads d (q.tail (fuel + 1) d) (ms ++ n :: added.reverse) rest :=
      ⟨by rw [hn, hrun.nodes_eq]; simp, h.rest_eq⟩
    obtain ⟨rfl, -⟩ := leads_unique h hnodes
    exact hns n (List.mem_append_right _ List.mem_cons_self)
  have hmissing (heq : q.tail (fuel + 1) d = (past (q.fragment d.rest) d).missing) : False :=
    not_isQuotedPart rfl _ _ (hpart [] (by rw [heq]; rfl))
  have hstray (heq : q.tail (fuel + 1) d = q.tail fuel (past (q.fragment d.rest) d).stray) : False := by
    obtain ⟨added, hadded, -⟩ := adds_tail q fuel (past (q.fragment d.rest) d).stray
    exact not_isQuotedPart rfl _ _ (hpart added (heq ▸ hadded))
  have hstep : q = .backtick ∧ q.tail (fuel + 1) d = templateStep fuel (past (q.fragment d.rest) d) ∨
      q ≠ .backtick ∧ q.tail (fuel + 1) d = quotedStep q.char fuel (past (q.fragment d.rest) d) := by
    by_cases hq : q = .backtick
    · subst hq
      exact .inl ⟨rfl, templateTail_succ d⟩
    · exact .inr ⟨hq, tail_of_quote hq⟩
  generalize past (q.fragment d.rest) d = f at hpart hmissing hstray hstep ⊢
  cases hf : f.rest with
  | nil =>
    refine (hmissing ?_).elim
    rcases hstep with ⟨-, heq⟩ | ⟨-, heq⟩
    · simp only [heq, templateStep, hf]
    · simp only [heq, quotedStep, hf]
  | cons c t =>
    by_cases hclose : c = q.char
    · exact .inl ⟨t, by rw [hclose]⟩
    by_cases hslash : c = '\\'
    · subst hslash
      refine .inr (.inl ⟨t, rfl, fun hnone => hstray ?_⟩)
      rcases hstep with ⟨rfl, heq⟩ | ⟨hq, heq⟩
      · rw [heq, templateStep_escape hf, hf, hnone]
        rfl
      · rw [heq, quotedStep_escape hf, hf, hnone]
        cases q with
        | backtick => exact absurd rfl hq
        | single => rfl
        | double => rfl
    · rcases hstep with ⟨rfl, heq⟩ | ⟨hq, heq⟩
      · -- A substitution is no part of a literal.
        have hsubstitution : templateStep fuel f = templateTail fuel (f.enclose .substitution fun b =>
            (expressions fuel (b.sign 2).space).gap.expect "\x7d") := by
          unfold templateStep
          split
          · rename_i hnil
            cases hf.symm.trans hnil
          · rename_i hquote
            exact absurd (List.cons.inj (hf.symm.trans hquote)).1 hclose
          · rename_i hescape
            exact absurd (List.cons.inj (hf.symm.trans hescape)).1 hslash
          · rfl
        obtain ⟨added, hadded, -⟩ := adds_tail .backtick fuel (f.enclose .substitution fun b =>
          (expressions fuel (b.sign 2).space).gap.expect "\x7d")
        rw [heq, hsubstitution] at hpart
        obtain ⟨k, m, s, hleaf, -⟩ := hpart added hadded
        cases hleaf
      · rw [quotedStep_cons hf hslash, beq_eq_false_iff_ne.mpr hclose, if_neg Bool.false_ne_true] at heq
        split at heq
        · rename_i hgap
          exact .inr (.inr ⟨hq, c, t, rfl, ⟨hclose, hslash⟩, beq_iff_eq.mp hgap⟩)
        · exact (hmissing heq).elim

theorem closed_sign (run : List Char) (h : q.fragment (run ++ q.char :: rest) = run.length) :
    Closed q (run ++ [q.char]) (runPieces run) where
  ne := by simp
  tail d rest' fuel hfuel hd := by
    obtain ⟨k, rfl⟩ : ∃ k, fuel = k + 1 := ⟨fuel - 1, by simp at hfuel; omega⟩
    have hd : d.rest = run ++ q.char :: rest' := by simpa using hd
    obtain ⟨ns, hns, hleads⟩ := leads_run hd
    have hend : q = .backtick → q.char = '\x60' ∨ q.char = '\\' := by
      rintro rfl
      exact .inl rfl
    have hlength : q.fragment d.rest = run.length := hd ▸ fragment_change hend h rest'
    rw [← hlength] at hleads
    rw [tail_close hleads.rest_eq]
    refine ⟨_, ?_, hleads.trans (leads_sign hleads.rest_eq)⟩
    have happend := hns.append (makes_sign (past (q.fragment d.rest) d).cursor.mark (String.ofList [q.char]))
    rwa [List.append_nil] at happend

theorem closed_escape {es : List Char} {ps : List Piece} (run : List Char)
    (hrun : q.fragment (run ++ '\\' :: (es ++ (cs ++ rest))) = run.length)
    (hes : Lexeme.escape ('\\' :: (es ++ (cs ++ rest))) = es.length + 1) (h : Closed q cs ps) :
    Closed q (run ++ '\\' :: (es ++ cs)) (runPieces run ++ (escaped es :: ps)) where
  ne := by simp
  tail d after fuel hfuel hd := by
    simp only [List.length_append, List.length_cons] at hfuel
    obtain ⟨k, rfl⟩ : ∃ k, fuel = k + 1 := ⟨fuel - 1, by omega⟩
    have hd : d.rest = run ++ '\\' :: (es ++ (cs ++ after)) := by simpa using hd
    obtain ⟨c, t, rfl⟩ := List.exists_cons_of_ne_nil h.ne
    have hes : Lexeme.escape ('\\' :: (es ++ (c :: t ++ after))) = es.length + 1 :=
      escape_change hes (t ++ after)
    have hlength : q.fragment d.rest = run.length := hd ▸ fragment_change (fun _ => .inr rfl) hrun _
    obtain ⟨ns, hns, hleads⟩ := leads_run hd
    rw [← hlength] at hleads
    have htoken := leads_token .escape
      (show (past (q.fragment d.rest) d).rest = ('\\' :: es) ++ (c :: t ++ after) from hleads.rest_eq)
    obtain ⟨ms, hms, hleads'⟩ := h.tail _ after k (by omega) htoken.rest_eq
    rw [tail_escape hleads.rest_eq hes]
    exact ⟨_, hns.append ((makes_escape _ ('\\' :: es)).append hms), hleads.trans (htoken.trans hleads')⟩

theorem firm_quote (q : Quote) (html : Bool) (cs : List Char) : Firm html (q.char :: cs) := by
  cases q <;> exact ⟨rfl, rfl, fun _ => rfl⟩

theorem closed_blanks {xs : List Char} (hq : q ≠ .backtick) (run : List Char)
    (hrun : q.fragment (run ++ (xs ++ q.char :: rest)) = run.length) (hxs : Spacing false xs)
    (hne : ∃ c t, xs = c :: t ∧ c ≠ q.char ∧ c ≠ '\\') :
    Closed q (run ++ (xs ++ [q.char])) (runPieces run ++ [.raw xs]) where
  ne := by simp
  tail d after fuel hfuel hd := by
    simp only [List.length_append, List.length_cons] at hfuel
    obtain ⟨k, rfl⟩ : ∃ k, fuel = k + 1 := ⟨fuel - 1, by omega⟩
    have hd : d.rest = run ++ (xs ++ q.char :: after) := by simpa using hd
    obtain ⟨ns, hns, hleads⟩ := leads_run hd
    have hlength : q.fragment d.rest = run.length := by
      obtain ⟨c, t, rfl, -⟩ := hne
      exact hd ▸ fragment_change (fun heq => absurd heq hq) hrun _
    rw [← hlength] at hleads
    have hfront := hleads.rest_eq
    obtain ⟨ms, -, hgap⟩ := hxs.leads id (firm_quote q false after) hfront
      (show xs.length < (past (q.fragment d.rest) d).rest.length + 1 by
        rw [hfront, List.length_append]
        omega)
    have hgap : (past (q.fragment d.rest) d).gap.rest = q.char :: after := hgap.rest_eq
    have hlast : (past (q.fragment d.rest) d).rest.length -
        (past (q.fragment d.rest) d).gap.rest.length = xs.length := by
      rw [hfront, hgap, List.length_append, Nat.add_sub_cancel]
    have htoken := leads_token .fragment hfront
    obtain ⟨c, t, hxs, hc⟩ := hne
    rw [tail_blanks hq (by rw [hfront, hxs]; rfl) hc (by rw [hgap]; rfl), hlast]
    exact ⟨_, hns.append ((makes_fragment _ xs).append (makes_sign _ _)),
      hleads.trans (htoken.trans (leads_sign htoken.rest_eq))⟩

/-- What closes a quoted text at one place closes it everywhere. -/
theorem closed_of_leads (h : Leads d (q.tail fuel d) ns rest)
    (hns : ∀ n ∈ ns, n.IsLeafOf Kind.isQuotedPart) :
    ∃ cs, d.rest = cs ++ rest ∧ Closed q cs (piecesOf ns) := by
  induction fuel generalizing d ns with
  | zero =>
    have hmissing : q.tail 0 d = d.missing := by
      cases q with
      | backtick => rw [Quote.tail, templateTail]
      | single => rfl
      | double => rfl
    have hleads : Leads d d.missing [leaf .missing d.cursor.mark ""] d.rest := ⟨rfl, rfl⟩
    rw [hmissing] at h
    obtain ⟨rfl, -⟩ := leads_unique h hleads
    exact absurd (hns _ List.mem_cons_self) (not_isQuotedPart rfl _ _)
  | succ fuel ih =>
    obtain ⟨run, ms, hrest, hlength, hms, hrun⟩ := exists_run q d
    rw [← hrun.rest_eq] at hrest
    rcases tail_cases h hns with ⟨t, ht⟩ | ⟨t, ht, hescape⟩ | ⟨hq, c, t, ht, hc, hgap⟩
    · -- The closing quote.
      rw [tail_close ht] at h
      obtain ⟨rfl, rfl⟩ := leads_unique h (hrun.trans (leads_sign ht))
      rw [ht] at hrest
      refine ⟨run ++ [q.char], by simpa using hrest, ?_⟩
      have hclosed := closed_sign run (hrest ▸ hlength)
      rwa [(hms.append (makes_sign _ _)).pieces, List.append_nil]
    · -- An escape, and what comes after it.
      obtain ⟨m, hm⟩ := Nat.exists_eq_succ_of_ne_zero hescape
      have hle := escape_le t
      have htake : (t.take m).length = m := List.length_take_of_le (by omega)
      have hsplit : t = t.take m ++ t.drop m := (List.take_append_drop m t).symm
      have hes : Lexeme.escape ('\\' :: (t.take m ++ t.drop m)) = (t.take m).length + 1 := by
        rw [← hsplit, hm, htake]
      rw [hsplit] at ht
      rw [tail_escape ht hes] at h
      have htoken := hrun.trans (leads_token .escape (show _ = ('\\' :: t.take m) ++ t.drop m from ht))
      obtain ⟨ns', hleads⟩ := exists_leads (adds_tail q fuel
        ((past (q.fragment d.rest) d).token .escape ('\\' :: t.take m).length))
      obtain ⟨rfl, hend⟩ := leads_unique h (htoken.trans hleads)
      rw [← hend] at hleads
      obtain ⟨cs, hcs, hclosed⟩ := ih hleads fun n hn => hns n (List.mem_append_right _ hn)
      rw [htoken.rest_eq] at hcs
      rw [ht, hcs] at hrest
      rw [hcs] at hes
      refine ⟨run ++ '\\' :: (t.take m ++ cs), by simpa using hrest, ?_⟩
      have hpieces := (hms.append (makes_escape (past (q.fragment d.rest) d).cursor.mark
        ('\\' :: t.take m))).pieces
      rw [piecesOf_append, hpieces, List.append_assoc]
      exact closed_escape run (hrest ▸ hlength) hes hclosed
    · -- White space before the closing quote.
      obtain ⟨after, hafter⟩ := List.head?_eq_some_iff.mp hgap
      obtain ⟨xs, -, hxs, hspacing, -⟩ := exists_spacing_gap (d := past (q.fragment d.rest) d)
        (by rw [hafter]; exact List.cons_ne_nil _ _)
      rw [hafter] at hxs
      have hlast : (past (q.fragment d.rest) d).rest.length -
          (past (q.fragment d.rest) d).gap.rest.length = xs.length := by
        rw [hafter, hxs, List.length_append, Nat.add_sub_cancel]
      rw [tail_blanks hq ht hc hgap, hlast] at h
      have htoken := hrun.trans (leads_token .fragment hxs)
      obtain ⟨rfl, rfl⟩ := leads_unique h (htoken.trans (leads_sign htoken.rest_eq))
      have hne : ∃ c t, xs = c :: t ∧ c ≠ q.char ∧ c ≠ '\\' := by
        rw [ht] at hxs
        cases xs with
        | nil => exact absurd (List.cons.inj hxs).1 hc.1
        | cons x xs => exact ⟨x, xs, rfl, (List.cons.inj hxs).1 ▸ hc⟩
      rw [hxs] at hrest
      refine ⟨run ++ (xs ++ [q.char]), by simpa using hrest, ?_⟩
      have hpieces := (hms.append ((makes_fragment (past (q.fragment d.rest) d).cursor.mark xs).append
        (makes_sign (((past (q.fragment d.rest) d).token .fragment xs.length).cursor.mark)
          (String.ofList [q.char])))).pieces
      rw [List.append_assoc, hpieces]
      exact closed_blanks hq run (hrest ▸ hlength) hspacing hne

/-! ### Texts with their quotes -/

/-- A text in quotes, with its value. -/
def Quotation (q : Quote) (cs : List Char) (s : String) : Prop :=
  ∃ t ps, cs = q.char :: t ∧ Closed q t ps ∧ s = cook ps

/-- A text in quotes is read as one node wherever it stands. -/
theorem Quotation.leads {s : String} (h : Quotation q cs s) (hfuel : cs.length < fuel)
    (hd : d.rest = cs ++ rest) :
    ∃ a b ns, ((∀ n ∈ ns, n.IsLeafOf Kind.isQuotedPart) ∧ cook (piecesOf ns) = s) ∧
      Leads d (q.read fuel d) [.branch q.kind a b ns] rest := by
  obtain ⟨t, ps, rfl, hclosed, rfl⟩ := h
  obtain ⟨a, b, m, x, ns, hns, hleads⟩ := leads_read_of_tail (n := t.length) hfuel (by simp) hd
    fun k d' hk hd' => hclosed.tail d' rest k (Nat.le_of_lt hk) hd'
  have hall := (makes_sign m x).append hns
  exact ⟨a, b, _, ⟨hall.leaves, congrArg cook hall.pieces⟩, hleads⟩

/-- Reading a quoted text is reading what comes after its opening quote. -/
theorem exists_tail {n : Node source} (h : Leads d (q.read fuel d) [n] rest) (hn : n.kind ≠ .missing) :
    ∃ k ns, Leads (sign 1 (fresh d.cursor)) (q.tail k (sign 1 (fresh d.cursor))) ns rest ∧
      ∃ a b, n = .branch q.kind a b (leaf .punctuation d.cursor.mark (d.cursor.peek 1) :: ns) := by
  have henclose {k : Nat} (heq : q.read fuel d = d.enclose q.kind fun b => q.tail k (b.sign 1)) :
      ∃ k ns, Leads (sign 1 (fresh d.cursor)) (q.tail k (sign 1 (fresh d.cursor))) ns rest ∧
        ∃ a b, n = .branch q.kind a b (leaf .punctuation d.cursor.mark (d.cursor.peek 1) :: ns) := by
    obtain ⟨ns, hns⟩ := exists_leads (adds_tail q k (sign 1 (fresh d.cursor)))
    have hsign : Leads (fresh d.cursor) (sign 1 (fresh d.cursor))
        [leaf .punctuation d.cursor.mark (d.cursor.peek 1)] (sign 1 (fresh d.cursor)).rest := ⟨rfl, rfl⟩
    rw [heq] at h
    obtain ⟨hnode, rfl⟩ := leads_unique h ((hsign.trans hns).close q.kind)
    exact ⟨k, ns, hns, _, _, List.head_eq_of_cons_eq hnode⟩
  cases q with
  | backtick =>
    cases fuel with
    | zero =>
      have hmissing : Quote.backtick.read 0 d = d.missing := by rw [Quote.read, template]
      rw [hmissing] at h
      obtain ⟨hnode, -⟩ := leads_unique h (show Leads d d.missing [_] d.rest from ⟨rfl, rfl⟩)
      rw [List.head_eq_of_cons_eq hnode] at hn
      exact absurd rfl hn
    | succ k => exact henclose (k := k) (by rw [Quote.read, template]; rfl)
  | single => exact henclose rfl
  | double => exact henclose rfl

/-- What is read as a text in quotes is one. -/
theorem quotation_of_read {k : Kind} {a b : Text.Mark source} (hd : d.rest = q.char :: cs)
    (h : Leads d (q.read fuel d) [.branch k a b ns] rest) (hk : k ≠ .missing)
    (hns : ∀ n ∈ ns, n.IsLeafOf Kind.isQuotedPart) :
    ∃ t, d.rest = t ++ rest ∧ Quotation q t (cook (piecesOf ns)) := by
  obtain ⟨j, ms, htail, a', b', hnode⟩ := exists_tail h hk
  obtain ⟨-, -, -, rfl⟩ := Node.branch.inj hnode
  obtain ⟨t, ht, hclosed⟩ := closed_of_leads htail (List.forall_mem_cons.mp hns).2
  have hrest : (sign 1 (fresh d.cursor)).rest = cs := congrArg (List.drop 1) hd
  refine ⟨q.char :: t, ?_, t, _, rfl, hclosed, rfl⟩
  rw [hd, List.cons_append, ← ht, hrest]

end Workyard.Options
