import Workyard.Proofs.Text.Blemish

/-!
# Line ends

Turning the line ends of a text into feeds changes nothing else of it, and the line ends of a part
are those that it has as a text of its own if the part begins and ends visibly. A neat text has
only feeds as line ends, and no blemish.
-/

namespace Workyard.Text

set_option autoImplicit false

/-- The second text is the first with its pairs of return and feed turned into feeds, and with
`alone` also the returns that no feed follows. -/
inductive TurnsLineEnds (alone : Bool) : List Char → List Char → Prop
  | nil : TurnsLineEnds alone [] []
  | other {c : Char} {cs ds : List Char} (hc : c ≠ '\r') (h : TurnsLineEnds alone cs ds) :
      TurnsLineEnds alone (c :: cs) (c :: ds)
  | pair {cs ds : List Char} (h : TurnsLineEnds alone cs ds) :
      TurnsLineEnds alone ('\r' :: '\n' :: cs) ('\n' :: ds)
  | lone {cs ds : List Char} (hnext : ∀ rest, cs ≠ '\n' :: rest) (h : TurnsLineEnds alone cs ds) :
      TurnsLineEnds alone ('\r' :: cs) ((if alone then '\n' else '\r') :: ds)

/-- The second text is the first with returns put before some of its feeds. -/
inductive WithReturns : List Char → List Char → Prop
  | nil : WithReturns [] []
  | keep (c : Char) {cs ds : List Char} (h : WithReturns cs ds) : WithReturns (c :: cs) (c :: ds)
  | pair {cs ds : List Char} (h : WithReturns cs ds) : WithReturns ('\n' :: cs) ('\r' :: '\n' :: ds)

/-- Two texts that differ only in returns before their feeds. -/
def SameLines (s t : String) : Prop :=
  ∃ cs, WithReturns cs s.toList ∧ WithReturns cs t.toList

variable {c : Char} {cs ds : List Char}

theorem joinLineEnds_cons (hc : c ≠ '\r') : joinLineEnds (c :: cs) = c :: joinLineEnds cs := by
  rw [joinLineEnds]
  rintro _ rfl
  exact absurd rfl hc

theorem joinLineEnds_lone (hnext : ∀ rest, cs ≠ '\n' :: rest) :
    joinLineEnds ('\r' :: cs) = '\r' :: joinLineEnds cs := by
  rw [joinLineEnds]
  rintro rest _ rfl
  exact absurd rfl (hnext rest)

theorem joinLineEnds_of_no_return (h : '\r' ∉ cs) : joinLineEnds cs = cs := by
  induction cs with
  | nil => rfl
  | cons c cs ih =>
    rw [List.mem_cons, not_or] at h
    rw [joinLineEnds_cons (Ne.symm h.1), ih h.2]

theorem TurnsLineEnds.eq_of_no_return {alone : Bool} (h : TurnsLineEnds alone cs ds)
    (hcs : '\r' ∉ cs) : ds = cs := by
  induction h with
  | nil => rfl
  | other _ _ ih => rw [ih fun hmem => hcs (List.mem_cons_of_mem _ hmem)]
  | pair => exact absurd List.mem_cons_self hcs
  | lone => exact absurd List.mem_cons_self hcs

/-- Induction on a text, with a case for each constructor of the relation. -/
theorem turnsLineEnds_induction {motive : List Char → Prop} (nil : motive [])
    (other : ∀ c cs, c ≠ '\r' → motive cs → motive (c :: cs))
    (pair : ∀ cs, motive cs → motive ('\r' :: '\n' :: cs))
    (lone : ∀ cs, (∀ rest, cs ≠ '\n' :: rest) → motive cs → motive ('\r' :: cs)) (cs : List Char) :
    motive cs := by
  induction cs using joinLineEnds.induct with
  | case1 cs ih => exact pair cs ih
  | case2 c cs hnot ih =>
    by_cases hc : c = '\r'
    · subst hc
      exact lone cs (fun rest heq => hnot rest rfl heq) ih
    · exact other c cs hc ih
  | case3 => exact nil

theorem turnsLineEnds_joinLineEnds (cs : List Char) : TurnsLineEnds false cs (joinLineEnds cs) := by
  induction cs using turnsLineEnds_induction with
  | nil => exact .nil
  | other c cs hc ih =>
    rw [joinLineEnds_cons hc]
    exact .other hc ih
  | pair cs ih => exact .pair ih
  | lone cs hnext ih =>
    rw [joinLineEnds_lone hnext]
    exact .lone hnext ih

theorem turnsLineEnds_unixLines (cs : List Char) : TurnsLineEnds true cs (unixLines cs) := by
  unfold unixLines
  induction cs using turnsLineEnds_induction with
  | nil => exact .nil
  | other c cs hc ih =>
    rw [joinLineEnds_cons hc, List.map_cons, returnToFeed, if_neg hc]
    exact .other hc ih
  | pair cs ih => exact .pair ih
  | lone cs hnext ih =>
    rw [joinLineEnds_lone hnext]
    exact .lone hnext ih

/-- No pair of return and feed lies across two texts the second of which begins with no feed. -/
theorem joinLineEnds_append_of_head (h : ∀ rest, ds ≠ '\n' :: rest) :
    joinLineEnds (cs ++ ds) = joinLineEnds cs ++ joinLineEnds ds := by
  induction cs using turnsLineEnds_induction with
  | nil => rfl
  | other c cs hc ih => rw [List.cons_append, joinLineEnds_cons hc, ih, joinLineEnds_cons hc]; rfl
  | pair cs ih =>
    rw [List.cons_append, List.cons_append, joinLineEnds, ih, joinLineEnds]
    rfl
  | lone cs hnext ih =>
    have hnext' : ∀ rest, cs ++ ds ≠ '\n' :: rest := by
      intro rest heq
      cases cs with
      | nil => exact h rest heq
      | cons c cs => exact hnext cs (by rw [(List.cons.inj heq).1])
    rw [List.cons_append, joinLineEnds_lone hnext', ih, joinLineEnds_lone hnext]
    rfl

theorem joinLineEnds_append (h : BeginsVisibly ds) :
    joinLineEnds (cs ++ ds) = joinLineEnds cs ++ joinLineEnds ds := by
  refine joinLineEnds_append_of_head fun rest heq => ?_
  rw [heq, beginsVisibly_cons] at h
  exact absurd h (by decide)

theorem joinLineEnds_append_of_endsVisibly (h : EndsVisibly cs) (ds : List Char) :
    joinLineEnds (cs ++ ds) = joinLineEnds cs ++ joinLineEnds ds := by
  obtain ⟨rest, c, rfl, hc⟩ := h
  have hvisible : ∀ rest, BeginsVisibly (c :: rest) := fun _ => beginsVisibly_cons.mpr hc
  have hreturn : c ≠ '\r' := by
    rintro rfl
    exact absurd hc (by decide)
  rw [joinLineEnds_append (hvisible []), List.append_assoc, List.singleton_append,
    joinLineEnds_append (hvisible ds), joinLineEnds_cons hreturn, joinLineEnds_cons hreturn,
    List.append_assoc]
  rfl

theorem length_joinLineEnds_le (cs : List Char) : (joinLineEnds cs).length ≤ cs.length := by
  induction cs using turnsLineEnds_induction with
  | nil => exact Nat.le_refl 0
  | other c cs hc ih =>
    rw [joinLineEnds_cons hc]
    exact Nat.succ_le_succ ih
  | pair cs ih => exact Nat.le_succ_of_le (Nat.succ_le_succ ih)
  | lone cs hnext ih =>
    rw [joinLineEnds_lone hnext]
    exact Nat.succ_le_succ ih

theorem joinLineEnds_append_pair (cs ds : List Char) :
    joinLineEnds (cs ++ '\r' :: '\n' :: ds) = joinLineEnds cs ++ '\n' :: joinLineEnds ds := by
  refine joinLineEnds_append_of_head fun rest heq => ?_
  exact absurd (List.cons.inj heq).1 (by decide)

theorem length_joinLineEnds_lt (h : ['\r', '\n'] <:+: cs) :
    (joinLineEnds cs).length < cs.length := by
  obtain ⟨before, after, rfl⟩ := h
  have hbefore := length_joinLineEnds_le before
  have hafter := length_joinLineEnds_le after
  rw [List.append_assoc, List.cons_append, List.singleton_append, joinLineEnds_append_pair]
  simp only [List.length_append, List.length_cons]
  omega

/-- No pair of return and feed is made by turning another one. -/
theorem joinLineEnds_joinLineEnds (h : ¬ ['\r', '\r', '\n'] <:+: cs) :
    joinLineEnds (joinLineEnds cs) = joinLineEnds cs := by
  induction cs using turnsLineEnds_induction with
  | nil => rfl
  | other c cs hc ih =>
    have hrest := ih fun hwithin => h (hwithin.trans (List.suffix_cons c cs).isInfix)
    rw [joinLineEnds_cons hc, joinLineEnds_cons hc, hrest]
  | pair cs ih =>
    have hrest := ih fun hwithin =>
      h (hwithin.trans (List.suffix_append ['\r', '\n'] cs).isInfix)
    rw [joinLineEnds, joinLineEnds_cons (by decide), hrest]
  | lone cs hnext ih =>
    have hrest := ih fun hwithin => h (hwithin.trans (List.suffix_cons '\r' cs).isInfix)
    have hnext' : ∀ rest, joinLineEnds cs ≠ '\n' :: rest := by
      intro rest heq
      cases cs using turnsLineEnds_induction with
      | nil => exact absurd heq (by simp [joinLineEnds])
      | other c cs hc =>
        rw [joinLineEnds_cons hc] at heq
        exact hnext cs (by rw [(List.cons.inj heq).1])
      | pair cs => exact h ⟨[], cs, rfl⟩
      | lone cs hlone =>
        rw [joinLineEnds_lone hlone] at heq
        exact absurd (List.cons.inj heq).1 (by decide)
    rw [joinLineEnds_lone hnext, joinLineEnds_lone hnext', hrest]

theorem unixLines_joinLineEnds (h : ¬ ['\r', '\r', '\n'] <:+: cs) :
    unixLines (joinLineEnds cs) = unixLines cs := by
  unfold unixLines
  rw [joinLineEnds_joinLineEnds h]

theorem unixLines_ne_nil (h : cs ≠ []) : unixLines cs ≠ [] := by
  induction cs using turnsLineEnds_induction with
  | nil => exact absurd rfl h
  | other c cs hc => simp [unixLines, joinLineEnds_cons hc]
  | pair cs => simp [unixLines, joinLineEnds]
  | lone cs hnext => simp [unixLines, joinLineEnds_lone hnext]

/-- Joining the line ends of a text first changes what its lines are exactly if a return stands
before a pair of return and feed, for then another pair is made. -/
theorem unixLines_joinLineEnds_iff (cs : List Char) :
    unixLines (joinLineEnds cs) = unixLines cs ↔ ¬ ['\r', '\r', '\n'] <:+: cs := by
  refine ⟨fun heq hwithin => ?_, unixLines_joinLineEnds⟩
  obtain ⟨before, after, rfl⟩ := hwithin
  have hpair : ['\r', '\n'] <:+: joinLineEnds (before ++ ['\r', '\r', '\n'] ++ after) := by
    have hreturn : joinLineEnds (before ++ ['\r']) = joinLineEnds before ++ ['\r'] :=
      joinLineEnds_append_of_head fun rest heq => absurd (List.cons.inj heq).1 (by decide)
    have hsplit : before ++ ['\r', '\r', '\n'] ++ after =
        before ++ ['\r'] ++ '\r' :: '\n' :: after := by
      simp
    rw [hsplit, joinLineEnds_append_pair, hreturn]
    exact ⟨joinLineEnds before, joinLineEnds after, by simp⟩
  have hlength := congrArg List.length heq
  simp only [unixLines, List.length_map] at hlength
  exact absurd hlength (Nat.ne_of_lt (length_joinLineEnds_lt hpair))

theorem unixLines_append (h : BeginsVisibly ds) :
    unixLines (cs ++ ds) = unixLines cs ++ unixLines ds := by
  unfold unixLines
  rw [joinLineEnds_append h, List.map_append]

theorem unixLines_append_of_endsVisibly (h : EndsVisibly cs) (ds : List Char) :
    unixLines (cs ++ ds) = unixLines cs ++ unixLines ds := by
  unfold unixLines
  rw [joinLineEnds_append_of_endsVisibly h, List.map_append]

theorem BeginsVisibly.joinLineEnds (h : BeginsVisibly cs) : BeginsVisibly (joinLineEnds cs) := by
  obtain ⟨c, rest, rfl, hc⟩ := h
  refine ⟨c, Text.joinLineEnds rest, joinLineEnds_cons ?_, hc⟩
  rintro rfl
  exact absurd hc (by decide)

theorem EndsVisibly.joinLineEnds (h : EndsVisibly cs) : EndsVisibly (joinLineEnds cs) := by
  obtain ⟨rest, c, rfl, hc⟩ := h
  refine ⟨Text.joinLineEnds rest, c, ?_, hc⟩
  rw [joinLineEnds_append (beginsVisibly_cons.mpr hc), joinLineEnds_cons]
  · rfl
  · rintro rfl
    exact absurd hc (by decide)

/-- The lines of two texts the line ends of which are joined first, where no line end lies across. -/
theorem unixLines_joinLineEnds_append (h : EndsVisibly cs ∨ BeginsVisibly ds) :
    unixLines (joinLineEnds (cs ++ ds)) =
      unixLines (joinLineEnds cs) ++ unixLines (joinLineEnds ds) := by
  rcases h with h | h
  · rw [joinLineEnds_append_of_endsVisibly h, unixLines_append_of_endsVisibly h.joinLineEnds]
  · rw [joinLineEnds_append h, unixLines_append h.joinLineEnds]

theorem BeginsVisibly.unixLines (h : BeginsVisibly cs) : BeginsVisibly (unixLines cs) := by
  obtain ⟨c, rest, hjoin, hc⟩ := h.joinLineEnds
  refine ⟨c, rest.map returnToFeed, ?_, hc⟩
  rw [Text.unixLines, hjoin, List.map_cons, returnToFeed, if_neg]
  rintro rfl
  exact absurd hc (by decide)

theorem EndsVisibly.unixLines (h : EndsVisibly cs) : EndsVisibly (unixLines cs) := by
  obtain ⟨rest, c, rfl, hc⟩ := h
  have hlast : '\r' ∉ [c] := by
    rw [List.mem_singleton]
    rintro rfl
    exact absurd hc (by decide)
  refine ⟨Text.unixLines rest, c, ?_, hc⟩
  rw [unixLines_append ⟨c, [], rfl, hc⟩, unixLines_of_no_return hlast]

structure Neat (cs : List Char) : Prop where
  spotless : Spotless cs
  no_return : '\r' ∉ cs

namespace Neat

theorem append (hc : Neat cs) (hd : Neat ds)
    (hbetween : EndsVisibly cs ∨ BeginsVisibly ds ∨ '\n' ∉ ds) : Neat (cs ++ ds) where
  spotless := hc.spotless.append hd.spotless hbetween
  no_return h := (List.mem_append.mp h).elim hc.no_return hd.no_return

theorem unixLines (h : Neat cs) : unixLines cs = cs :=
  unixLines_of_no_return h.no_return

theorem joinLineEnds (h : Neat cs) : joinLineEnds cs = cs :=
  joinLineEnds_of_no_return h.no_return

theorem unixLines_joinLineEnds (h : Neat cs) : Text.unixLines (Text.joinLineEnds cs) = cs := by
  rw [h.joinLineEnds, h.unixLines]

end Neat

theorem Firm.neat (h : Firm cs) : Neat cs :=
  ⟨h.spotless, h.no_return⟩

theorem Inline.neat (h : Inline cs) : Neat cs :=
  ⟨.of_no_feed h.no_feed, h.no_return⟩

theorem neat_of_closed (h : hasBlemish cs = false ∧ '\r' ∉ cs) : Neat cs :=
  ⟨spotless_of_hasBlemish h.1, h.2⟩

theorem WithReturns.refl (cs : List Char) : WithReturns cs cs := by
  induction cs with
  | nil => exact .nil
  | cons c cs ih => exact .keep c ih

theorem WithReturns.eq_nil_iff (h : WithReturns cs ds) : cs = [] ↔ ds = [] := by
  cases h <;> simp

theorem withReturns_joinLineEnds (cs : List Char) : WithReturns (joinLineEnds cs) cs := by
  induction cs using turnsLineEnds_induction with
  | nil => exact .nil
  | other c cs hc ih =>
    rw [joinLineEnds_cons hc]
    exact .keep c ih
  | pair cs ih => exact .pair ih
  | lone cs hnext ih =>
    rw [joinLineEnds_lone hnext]
    exact .keep '\r' ih

namespace SameLines

variable {s t : String}

theorem refl (s : String) : SameLines s s :=
  ⟨_, .refl _, .refl _⟩

theorem eq_empty_iff (h : SameLines s t) : s = "" ↔ t = "" := by
  obtain ⟨cs, hs, ht⟩ := h
  rw [← String.toList_eq_nil_iff, ← String.toList_eq_nil_iff, ← hs.eq_nil_iff, ht.eq_nil_iff]

theorem of_joined (h : withJoinedLineEnds s = withJoinedLineEnds t) : SameLines s t := by
  refine ⟨_, withReturns_joinLineEnds s.toList, ?_⟩
  rw [String.ofList_inj.mp h]
  exact withReturns_joinLineEnds t.toList

theorem joined (s : String) : SameLines (withJoinedLineEnds s) s := by
  refine ⟨joinLineEnds s.toList, ?_, withReturns_joinLineEnds s.toList⟩
  rw [withJoinedLineEnds, String.toList_ofList]
  exact .refl _

end SameLines

theorem withJoinedLineEnds_eq_empty_iff {s : String} : withJoinedLineEnds s = "" ↔ s = "" :=
  (SameLines.joined s).eq_empty_iff

end Workyard.Text
