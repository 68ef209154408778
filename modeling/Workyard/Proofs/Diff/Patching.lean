import Workyard.Diff.Unified
import Workyard.Proofs.Diff.Settling

/-!
# Patching

A unified diff is followed line by line: a hunk tells how far the old lines stay, and its own lines
which of the next ones stay or go and which new ones come. Following the diff of two texts turns
the first into the second.
-/

namespace Workyard.Diff

set_option autoImplicit false

/-! ### Following a diff -/

/-- How many lines come before a range. -/
def rangeStart (cs : List Char) : Nat :=
  let first := Nat.ofDigitChars 10 (cs.takeWhile Char.isDigit) 0
  match cs.dropWhile Char.isDigit with
  | ',' :: ds => if Nat.ofDigitChars 10 (ds.takeWhile Char.isDigit) 0 = 0 then first else first - 1
  | _ => first - 1

/-- Whether a line notes that the one before it has no end. -/
def isNote (l : Line) : Bool :=
  l.head? == some '\\'

/-- Follows the lines of a diff after so many old lines, with those that are left. -/
def patchLines : Nat → List Line → List Line → List Line
  | _, old, [] => old
  | n, old, l :: ls =>
    match l with
    | '@' :: cs =>
      let kept := rangeStart (cs.drop 3) - n
      old.take kept ++ patchLines (n + kept) (old.drop kept) ls
    | ' ' :: _ => old.take 1 ++ patchLines (n + 1) (old.drop 1) ls
    | '-' :: _ => patchLines (n + 1) (old.drop 1) ls
    | '+' :: cs =>
      (if (ls.head?.map isNote).getD false then cs.dropLast else cs) :: patchLines n old ls
    | _ => patchLines n old ls

/-- Follows a diff, the first two lines of which name the texts. -/
def patch (old diff : String) : String :=
  String.ofList (patchLines 0 (linesOf old.toList) ((linesOf diff.toList).drop 2)).flatten

/-! ### Lines -/

/-- A line without its end. -/
def Bare (l : Line) : Prop :=
  ∀ c ∈ l, endsLine c = false

instance : DecidablePred Bare := fun l =>
  decidable_of_iff (l.all fun c => !endsLine c) (by simp [Bare])

/-- A line with its end. -/
inductive Ended : Line → Prop
  | feed {l : Line} (h : Bare l) : Ended (l ++ ['\n'])
  | pair {l : Line} (h : Bare l) : Ended (l ++ ['\r', '\n'])
  | lone {l : Line} (h : Bare l) : Ended (l ++ ['\r'])

/-- A line of a text; the last one may have no end. -/
def IsLine (l : Line) : Prop :=
  Ended l ∨ Bare l ∧ l ≠ []

variable {l : Line} {ls : List Line} {cs rest : List Char}

theorem linesOf_feed (cs : List Char) : linesOf ('\n' :: cs) = ['\n'] :: linesOf cs := by
  rw [linesOf]
  · simp
  · rintro _ h
    exact absurd h (by decide)

theorem linesOf_lone (hcs : cs.head? ≠ some '\n') :
    linesOf ('\r' :: cs) = ['\r'] :: linesOf cs := by
  rw [linesOf]
  · simp
  · rintro rest _ rfl
    exact hcs rfl

theorem linesOf_cons {c : Char} (hc : endsLine c = false) :
    linesOf (c :: cs) = match linesOf cs with
      | [] => [[c]]
      | l :: ls => (c :: l) :: ls := by
  simp only [endsLine, Bool.or_eq_false_iff, beq_eq_false_iff_ne] at hc
  rw [linesOf]
  · refine (if_neg (by simp [hc])).trans ?_
    cases linesOf cs <;> rfl
  · rintro _ rfl _
    exact hc.2 rfl

theorem linesOf_bare_append (h : Bare l) {l' : Line} (hcs : linesOf cs = l' :: ls) :
    linesOf (l ++ cs) = (l ++ l') :: ls := by
  induction l with
  | nil => exact hcs
  | cons c l ih =>
    obtain ⟨hc, hl⟩ := List.forall_mem_cons.mp h
    rw [List.cons_append, linesOf_cons hc, ih hl]
    rfl

theorem linesOf_append (hl : Ended l) (hrest : rest.head? ≠ some '\n') :
    linesOf (l ++ rest) = l :: linesOf rest := by
  cases hl with
  | feed h =>
    rw [List.append_assoc]
    exact linesOf_bare_append h (linesOf_feed rest)
  | pair h =>
    rw [List.append_assoc]
    exact linesOf_bare_append h rfl
  | lone h =>
    rw [List.append_assoc]
    exact linesOf_bare_append h (linesOf_lone hrest)

theorem flatten_linesOf (cs : List Char) : (linesOf cs).flatten = cs := by
  induction cs using linesOf.induct with
  | case1 => rfl
  | case2 cs ih => simp [linesOf, ih]
  | case3 c cs hnot hend ih => simp [linesOf.eq_3 _ _ hnot, hend, ih]
  | case4 c cs hnot hend hnil ih =>
    rw [linesOf_cons (by simpa [endsLine] using hend), hnil]
    rw [hnil] at ih
    rw [← ih]
    rfl
  | case5 c cs hnot hend l ls hls ih =>
    rw [linesOf_cons (by simpa [endsLine] using hend), hls]
    rw [hls] at ih
    rw [← ih]
    rfl

theorem Bare.cons {c : Char} (hc : endsLine c = false) (h : Bare l) : Bare (c :: l) :=
  List.forall_mem_cons.mpr ⟨hc, h⟩

theorem Bare.append {l' : Line} (h : Bare l) (h' : Bare l') : Bare (l ++ l') := by
  intro c hc
  exact (List.mem_append.mp hc).elim (h c) (h' c)

theorem Ended.cons {c : Char} (hc : endsLine c = false) (h : Ended l) : Ended (c :: l) := by
  cases h with
  | feed h => exact .feed (h.cons hc)
  | pair h => exact .pair (h.cons hc)
  | lone h => exact .lone (h.cons hc)

theorem bare_nil : Bare [] := by simp [Bare]

theorem isLine_of_mem_linesOf (h : l ∈ linesOf cs) : IsLine l := by
  induction cs using linesOf.induct generalizing l with
  | case1 => simp [linesOf] at h
  | case2 cs ih =>
    rw [linesOf, List.mem_cons] at h
    rcases h with rfl | h
    · exact .inl (.pair bare_nil)
    · exact ih h
  | case3 c cs hnot hend ih =>
    simp only [linesOf.eq_3 _ _ hnot, hend, if_true, List.mem_cons] at h
    rcases h with rfl | h
    · simp only [Bool.or_eq_true, decide_eq_true_eq] at hend
      rcases hend with rfl | rfl
      · exact .inl (.feed bare_nil)
      · exact .inl (.lone bare_nil)
    · exact ih h
  | case4 c cs hnot hend hnil ih =>
    have hc : endsLine c = false := by simpa [endsLine] using hend
    rw [linesOf_cons hc, hnil] at h
    obtain rfl := List.mem_singleton.mp h
    exact .inr ⟨bare_nil.cons hc, by simp⟩
  | case5 c cs hnot hend l' ls hls ih =>
    have hc : endsLine c = false := by simpa [endsLine] using hend
    rw [linesOf_cons hc, hls] at h
    rcases List.mem_cons.mp h with rfl | h
    · rcases ih (hls ▸ List.mem_cons_self) with hended | ⟨hbare, -⟩
      · exact .inl (hended.cons hc)
      · exact .inr ⟨hbare.cons hc, by simp⟩
    · exact ih (hls ▸ List.mem_cons_of_mem _ h)

/-! ### The lines of a diff -/

def note : Line := "\\ No newline at end of file\n".toList

/-- A line behind a sign, and the note behind it if it has no end. -/
def signedLines (sign : Char) (l : Line) : List Line :=
  if (l.getLast?.map endsLine).getD false then [sign :: l] else [sign :: l ++ ['\n'], note]

def Block.lines : Block → List Line
  | .same ls => ls.flatMap (signedLines ' ')
  | .change old new => old.flatMap (signedLines '-') ++ new.flatMap (signedLines '+')

/-- What a hunk begins with. -/
def Hunk.heading (h : Hunk) : Line :=
  ("@@ -" ++ rangeText h.oldBefore h.old.length ++ " +" ++ rangeText h.newBefore h.new.length ++
    " @@\n").toList

def Hunk.lines (h : Hunk) : List Line :=
  h.heading :: h.blocks.flatMap Block.lines

/-- A text that reads as these lines whatever text follows it, if that begins a line. -/
def Lays (text : List Char) (ls : List Line) : Prop :=
  ∀ rest : List Char, rest.head? ≠ some '\n' →
    (text ++ rest).head? ≠ some '\n' ∧ linesOf (text ++ rest) = ls ++ linesOf rest

namespace Lays

variable {text text' : List Char} {ls' : List Line}

theorem nil : Lays [] [] :=
  fun _ hrest => ⟨hrest, rfl⟩

theorem append (h : Lays text ls) (h' : Lays text' ls') : Lays (text ++ text') (ls ++ ls') := by
  intro rest hrest
  obtain ⟨hhead', hlines'⟩ := h' rest hrest
  obtain ⟨hhead, hlines⟩ := h _ hhead'
  rw [List.append_assoc, List.append_assoc, ← hlines']
  exact ⟨hhead, hlines⟩

theorem flatMap {α : Type} {f : α → List Char} {g : α → List Line} {xs : List α}
    (h : ∀ x ∈ xs, Lays (f x) (g x)) : Lays (xs.flatMap f) (xs.flatMap g) := by
  induction xs with
  | nil => exact nil
  | cons x xs ih =>
    obtain ⟨hx, hxs⟩ := List.forall_mem_cons.mp h
    exact hx.append (ih hxs)

theorem of_ended {c : Char} (hc : endsLine c = false) (h : Ended (c :: l)) :
    Lays (c :: l) [c :: l] := by
  intro rest hrest
  refine ⟨?_, linesOf_append h hrest⟩
  rintro hhead
  obtain rfl := Option.some.inj hhead
  simp [endsLine] at hc

theorem linesOf_eq (h : Lays text ls) : linesOf text = ls := by
  simpa [linesOf] using (h [] (by simp)).2

end Lays

theorem Ended.endsLine (h : Ended l) : (l.getLast?.map endsLine).getD false = true := by
  cases h <;> simp [Diff.endsLine]

theorem Bare.not_endsLine (h : Bare l) : (l.getLast?.map endsLine).getD false = false := by
  cases hlast : l.getLast? with
  | none => rfl
  | some c => exact h c (List.mem_of_getLast? hlast)

theorem toList_note : "\n\\ No newline at end of file\n".toList = ['\n'] ++ note := by
  decide

theorem lays_note : Lays note [note] := by
  have hbare : Bare "\\ No newline at end of file".toList := by decide
  have hnote : note = "\\ No newline at end of file".toList ++ ['\n'] := by decide
  have hhead : note.head? = some '\\' := by decide
  obtain ⟨l, hl⟩ := List.head?_eq_some_iff.mp hhead
  rw [hl]
  refine .of_ended (by decide) ?_
  rw [← hl, hnote]
  exact .feed hbare

theorem lays_signed {sign : Char} (hsign : endsLine sign = false) (hl : IsLine l) :
    Lays (signed sign l) (signedLines sign l) := by
  unfold signed signedLines
  rcases hl with hended | ⟨hbare, -⟩
  · simp only [hended.endsLine, if_true, List.append_nil]
    exact .of_ended hsign (hended.cons hsign)
  · simp only [hbare.not_endsLine, Bool.false_eq_true, if_false]
    have hline : Lays (sign :: (l ++ ['\n'])) [sign :: (l ++ ['\n'])] :=
      .of_ended hsign (.feed (hbare.cons hsign))
    rw [toList_note, ← List.append_assoc]
    exact hline.append lays_note

/-! ### Ranges -/

theorem isDigit_repr {n : Nat} {c : Char} (h : c ∈ n.repr.toList) : c.isDigit = true := by
  rw [Nat.repr_eq_ofList_toDigits, String.toList_ofList] at h
  exact Nat.isDigit_of_mem_toDigits (by decide) (by decide) h

theorem ofDigitChars_repr (n : Nat) : Nat.ofDigitChars 10 n.repr.toList 0 = n := by
  rw [Nat.repr_eq_ofList_toDigits, String.toList_ofList, Nat.ofDigitChars_ten_toDigits]

theorem takeWhile_repr (n : Nat) {c : Char} (hc : c.isDigit = false) (cs : List Char) :
    (n.repr.toList ++ c :: cs).takeWhile Char.isDigit = n.repr.toList := by
  rw [List.takeWhile_append_of_pos fun _ h => isDigit_repr h]
  simp [hc]

theorem dropWhile_repr (n : Nat) {c : Char} (hc : c.isDigit = false) (cs : List Char) :
    (n.repr.toList ++ c :: cs).dropWhile Char.isDigit = c :: cs := by
  rw [List.dropWhile_append_of_pos fun _ h => isDigit_repr h]
  simp [hc]

theorem rangeText_cases (before count : Nat) :
    count = 1 ∧ (rangeText before count).toList = (before + 1).repr.toList ∨
      count = 0 ∧ (rangeText before count).toList = before.repr.toList ++ ',' :: count.repr.toList ∨
        count ≠ 0 ∧ (rangeText before count).toList =
          (before + 1).repr.toList ++ ',' :: count.repr.toList := by
  unfold rangeText
  split
  · rename_i hone
    exact .inl ⟨hone, rfl⟩
  · split
    · rename_i hzero
      subst hzero
      exact .inr (.inl ⟨rfl, String.toList_append ..⟩)
    · rename_i hzero
      refine .inr (.inr ⟨hzero, ?_⟩)
      rw [String.toList_append, String.toList_append, List.append_assoc]
      rfl

theorem rangeStart_rangeText (before count : Nat) (cs : List Char) :
    rangeStart ((rangeText before count).toList ++ ' ' :: cs) = before := by
  have hspace : Char.isDigit ' ' = false := by decide
  have hcomma : Char.isDigit ',' = false := by decide
  unfold rangeStart
  obtain ⟨-, htext⟩ | ⟨rfl, htext⟩ | ⟨hne, htext⟩ := rangeText_cases before count
  · rw [htext, takeWhile_repr _ hspace, dropWhile_repr _ hspace, ofDigitChars_repr]
    rfl
  · rw [htext, List.append_assoc, List.cons_append, takeWhile_repr _ hcomma,
      dropWhile_repr _ hcomma, ofDigitChars_repr]
    simp only [takeWhile_repr _ hspace, ofDigitChars_repr, if_true]
  · rw [htext, List.append_assoc, List.cons_append, takeWhile_repr _ hcomma,
      dropWhile_repr _ hcomma, ofDigitChars_repr]
    simp only [takeWhile_repr _ hspace, ofDigitChars_repr, hne, if_false]
    omega

theorem bare_rangeText (before count : Nat) : Bare (rangeText before count).toList := by
  have hdigits {n : Nat} : Bare n.repr.toList := by
    intro c hc
    have hdigit := isDigit_repr hc
    simp only [endsLine, Bool.or_eq_false_iff, beq_eq_false_iff_ne]
    constructor <;> rintro rfl <;> simp [Char.isDigit] at hdigit
  obtain ⟨-, htext⟩ | ⟨-, htext⟩ | ⟨-, htext⟩ := rangeText_cases before count
  · rw [htext]
    exact hdigits
  · rw [htext]
    exact hdigits.append (hdigits.cons (by decide))
  · rw [htext]
    exact hdigits.append (hdigits.cons (by decide))

theorem heading_eq (h : Hunk) : h.heading = '@' :: '@' :: ' ' :: '-' ::
    ((rangeText h.oldBefore h.old.length).toList ++ ' ' :: '+' ::
      ((rangeText h.newBefore h.new.length).toList ++ [' ', '@', '@', '\n'])) := by
  simp only [Hunk.heading, String.toList_append, List.append_assoc]
  rfl

theorem lays_heading (h : Hunk) : Lays h.heading [h.heading] := by
  have hold := bare_rangeText h.oldBefore h.old.length
  have hnew := bare_rangeText h.newBefore h.new.length
  have hbare : Bare (['@', '@', ' ', '-'] ++ ((rangeText h.oldBefore h.old.length).toList ++
      ([' ', '+'] ++ ((rangeText h.newBefore h.new.length).toList ++ [' ', '@', '@'])))) :=
    .append (by decide) (hold.append (.append (by decide) (hnew.append (by decide))))
  have hended := Ended.feed hbare
  rw [heading_eq]
  refine .of_ended (by decide) ?_
  simpa using hended

/-! ### Following the lines of a diff -/

/-- Whether no note comes first. -/
def Plain (ls : List Line) : Prop :=
  (ls.head?.map isNote).getD false = false

variable {n : Nat} {old : List Line}

theorem note_eq_cons : ∃ cs, note = '\\' :: cs := by
  have hhead : note.head? = some '\\' := by decide
  exact List.head?_eq_some_iff.mp hhead

theorem patchLines_nil (n : Nat) (old : List Line) : patchLines n old [] = old := rfl

theorem patchLines_at : patchLines n old (('@' :: cs) :: ls) =
    old.take (rangeStart (cs.drop 3) - n) ++ patchLines (n + (rangeStart (cs.drop 3) - n))
      (old.drop (rangeStart (cs.drop 3) - n)) ls := rfl

theorem patchLines_note (n : Nat) (old ls : List Line) :
    patchLines n old (note :: ls) = patchLines n old ls := by
  obtain ⟨cs, hcs⟩ := note_eq_cons
  rw [hcs]
  rfl

theorem signedLines_cases {sign : Char} (hl : IsLine l) :
    signedLines sign l = [sign :: l] ∨ signedLines sign l = [sign :: (l ++ ['\n']), note] := by
  unfold signedLines
  rcases hl with hended | ⟨hbare, -⟩
  · exact .inl (if_pos hended.endsLine)
  · exact .inr (if_neg (by simp [hbare.not_endsLine]))

theorem plain_signedLines {sign : Char} (hsign : sign ≠ '\\') (l : Line) (ls : List Line) :
    Plain (signedLines sign l ++ ls) := by
  unfold signedLines
  split <;> simp [Plain, isNote, hsign]

theorem patchLines_space : patchLines n (l :: old) ((' ' :: cs) :: ls) =
    l :: patchLines (n + 1) old ls := rfl

theorem patchLines_minus : patchLines n (l :: old) (('-' :: cs) :: ls) =
    patchLines (n + 1) old ls := rfl

theorem patchLines_plus : patchLines n old (('+' :: cs) :: ls) =
    (if (ls.head?.map isNote).getD false then cs.dropLast else cs) :: patchLines n old ls := rfl

theorem patchLines_keep (hl : IsLine l) :
    patchLines n (l :: old) (signedLines ' ' l ++ ls) = l :: patchLines (n + 1) old ls := by
  rcases signedLines_cases hl with h | h <;> rw [h]
  · exact patchLines_space
  · exact patchLines_space.trans (congrArg _ (patchLines_note ..))

theorem patchLines_delete (hl : IsLine l) :
    patchLines n (l :: old) (signedLines '-' l ++ ls) = patchLines (n + 1) old ls := by
  rcases signedLines_cases hl with h | h <;> rw [h]
  · exact patchLines_minus
  · exact patchLines_minus.trans (patchLines_note ..)

theorem patchLines_insert (hl : IsLine l) (hls : Plain ls) :
    patchLines n old (signedLines '+' l ++ ls) = l :: patchLines n old ls := by
  rcases signedLines_cases hl with h | h <;> rw [h]
  · rw [List.singleton_append, patchLines_plus, hls]
    rfl
  · obtain ⟨cs, hcs⟩ := note_eq_cons
    refine patchLines_plus.trans ?_
    have hnote : isNote note = true := by simp [hcs, isNote]
    simp [hnote, patchLines_note]

theorem patchLines_keepAll {xs : List Line} (hxs : ∀ l ∈ xs, IsLine l) :
    patchLines n (xs ++ old) (xs.flatMap (signedLines ' ') ++ ls) =
      xs ++ patchLines (n + xs.length) old ls := by
  induction xs generalizing n with
  | nil => rfl
  | cons l xs ih =>
    obtain ⟨hl, hxs⟩ := List.forall_mem_cons.mp hxs
    rw [List.flatMap_cons, List.append_assoc, List.cons_append, patchLines_keep hl, ih hxs,
      List.length_cons, Nat.add_right_comm n 1]
    rfl

theorem patchLines_deleteAll {xs : List Line} (hxs : ∀ l ∈ xs, IsLine l) :
    patchLines n (xs ++ old) (xs.flatMap (signedLines '-') ++ ls) =
      patchLines (n + xs.length) old ls := by
  induction xs generalizing n with
  | nil => rfl
  | cons l xs ih =>
    obtain ⟨hl, hxs⟩ := List.forall_mem_cons.mp hxs
    rw [List.flatMap_cons, List.append_assoc, List.cons_append, patchLines_delete hl, ih hxs,
      List.length_cons, Nat.add_right_comm n 1]
    rfl

theorem plain_flatMap {sign : Char} (hsign : sign ≠ '\\') (hls : Plain ls) (xs : List Line) :
    Plain (xs.flatMap (signedLines sign) ++ ls) := by
  cases xs with
  | nil => exact hls
  | cons l xs =>
    rw [List.flatMap_cons, List.append_assoc]
    exact plain_signedLines hsign l _

theorem patchLines_insertAll {xs : List Line} (hxs : ∀ l ∈ xs, IsLine l) (hls : Plain ls) :
    patchLines n old (xs.flatMap (signedLines '+') ++ ls) = xs ++ patchLines n old ls := by
  induction xs with
  | nil => rfl
  | cons l xs ih =>
    obtain ⟨hl, hxs⟩ := List.forall_mem_cons.mp hxs
    rw [List.flatMap_cons, List.append_assoc,
      patchLines_insert hl (plain_flatMap (by decide) hls xs), ih hxs]
    rfl

/-! ### Following hunks -/

def Block.OfLines (b : Block) : Prop :=
  (∀ l ∈ b.old, IsLine l) ∧ ∀ l ∈ b.new, IsLine l

variable {b : Block} {bs : List Block} {h : Hunk}

theorem lays_block (hb : b.OfLines) : Lays b.text b.lines := by
  obtain ⟨hold, hnew⟩ := hb
  cases b with
  | same ls => exact .flatMap fun l hl => lays_signed (by decide) (hold l hl)
  | change old new =>
    exact .append (.flatMap fun l hl => lays_signed (by decide) (hold l hl))
      (.flatMap fun l hl => lays_signed (by decide) (hnew l hl))

theorem lays_hunk (hh : ∀ b ∈ h.blocks, b.OfLines) : Lays h.text h.lines :=
  (lays_heading h).append (.flatMap fun b hb => lays_block (hh b hb))

theorem plain_block (hls : Plain ls) (b : Block) : Plain (b.lines ++ ls) := by
  cases b with
  | same xs => exact plain_flatMap (by decide) hls xs
  | change old new =>
    unfold Block.lines
    rw [List.append_assoc]
    exact plain_flatMap (by decide) (plain_flatMap (by decide) hls new) old

theorem patchLines_block (hb : b.OfLines) (hls : Plain ls) :
    patchLines n (b.old ++ old) (b.lines ++ ls) =
      b.new ++ patchLines (n + b.old.length) old ls := by
  obtain ⟨hold, hnew⟩ := hb
  cases b with
  | same xs => exact patchLines_keepAll hold
  | change xs ys =>
    rw [Block.lines, List.append_assoc]
    exact (patchLines_deleteAll hold).trans (patchLines_insertAll hnew hls)

theorem plain_blocks (hls : Plain ls) (bs : List Block) : Plain (bs.flatMap Block.lines ++ ls) := by
  induction bs with
  | nil => exact hls
  | cons b bs ih =>
    rw [List.flatMap_cons, List.append_assoc]
    exact plain_block ih b

theorem patchLines_blocks (hbs : ∀ b ∈ bs, b.OfLines) (hls : Plain ls) :
    patchLines n (bs.flatMap Block.old ++ old) (bs.flatMap Block.lines ++ ls) =
      bs.flatMap Block.new ++ patchLines (n + (bs.flatMap Block.old).length) old ls := by
  induction bs generalizing n with
  | nil => rfl
  | cons b bs ih =>
    obtain ⟨hb, hbs⟩ := List.forall_mem_cons.mp hbs
    rw [List.flatMap_cons, List.flatMap_cons, List.flatMap_cons, List.append_assoc,
      List.append_assoc, List.append_assoc, patchLines_block hb (plain_blocks hls bs), ih hbs,
      List.length_append, Nat.add_assoc]

theorem plain_hunks (hs : List Hunk) : Plain (hs.flatMap Hunk.lines) := by
  cases hs with
  | nil => rfl
  | cons h hs =>
    rw [List.flatMap_cons, Hunk.lines, heading_eq]
    rfl

/-- A hunk keeps the lines before it, which are in the text and not in the diff. -/
theorem patchLines_hunk (hh : ∀ b ∈ h.blocks, b.OfLines) {gap : List Line}
    (hgap : n + gap.length = h.oldBefore) (hs : List Hunk) :
    patchLines n (gap ++ (h.old ++ old)) (h.lines ++ hs.flatMap Hunk.lines) =
      gap ++ (h.new ++ patchLines (h.oldBefore + h.old.length) old (hs.flatMap Hunk.lines)) := by
  have hkept : h.oldBefore - n = gap.length := by omega
  rw [Hunk.lines, List.cons_append, heading_eq, patchLines_at]
  simp only [List.drop_succ_cons, List.drop_zero, rangeStart_rangeText, hkept,
    List.take_left, List.drop_left]
  rw [Hunk.old, Hunk.new, patchLines_blocks hh (plain_hunks hs), hgap]

theorem old_of_not_shown (hh : h.isShown = false) : h.old = h.new := by
  unfold Hunk.old Hunk.new
  have hsame : ∀ b ∈ h.blocks, b.old = b.new := by
    intro b hb
    have hkept := List.any_eq_false.mp hh b hb
    cases b with
    | same ls => rfl
    | change old new => simp at hkept
  rw [List.flatMap_def, List.flatMap_def, List.map_congr_left hsame]

@[simp] theorem old_add (h : Hunk) (b : Block) : (h.add b).old = h.old ++ b.old := by
  simp [Hunk.add, Hunk.old]

@[simp] theorem new_add (h : Hunk) (b : Block) : (h.add b).new = h.new ++ b.new := by
  simp [Hunk.add, Hunk.new]

@[simp] theorem old_after (h : Hunk) (skipped : Nat) : (h.after skipped).old = [] := rfl

@[simp] theorem new_after (h : Hunk) (skipped : Nat) : (h.after skipped).new = [] := rfl

@[simp] theorem old_same (ls : List Line) : (Block.same ls).old = ls := rfl

@[simp] theorem new_same (ls : List Line) : (Block.same ls).new = ls := rfl

/-- A hunk that changes nothing is not needed to follow the others. -/
theorem patchLines_shown {hs : List Hunk} {gap kept rest result : List Line}
    (hh : ∀ b ∈ h.blocks, b.OfLines) (hgap : n + gap.length = h.oldBefore)
    (hrest : ∀ n' (gap' : List Line),
      n' + gap'.length = h.oldBefore + h.old.length + kept.length →
        patchLines n' (gap' ++ rest) ((hs.filter (·.isShown)).flatMap Hunk.lines) =
          gap' ++ result) :
    patchLines n (gap ++ (h.old ++ (kept ++ rest)))
        (((h :: hs).filter (·.isShown)).flatMap Hunk.lines) =
      gap ++ (h.new ++ (kept ++ result)) := by
  cases hshown : h.isShown with
  | true =>
    rw [List.filter_cons_of_pos hshown, List.flatMap_cons, patchLines_hunk hh hgap,
      hrest _ kept rfl]
  | false =>
    have hlength : n + (gap ++ (h.old ++ kept)).length =
        h.oldBefore + h.old.length + kept.length := by
      simp only [List.length_append]
      omega
    have hfollowed := hrest n (gap ++ (h.old ++ kept)) hlength
    rw [List.filter_cons_of_neg (by simp [hshown]), ← old_of_not_shown hshown]
    simpa only [List.append_assoc] using hfollowed

theorem ofLines_add (hh : ∀ b ∈ h.blocks, b.OfLines) (hb : b.OfLines) :
    ∀ b' ∈ (h.add b).blocks, b'.OfLines := by
  intro b' hb'
  rcases List.mem_append.mp hb' with hb' | hb'
  · exact hh b' hb'
  · obtain rfl := List.mem_singleton.mp hb'
    exact hb

theorem ofLines_same {xs : List Line} (hxs : ∀ l ∈ xs, IsLine l) : (Block.same xs).OfLines :=
  ⟨hxs, hxs⟩

/-- Lines that stay are divided into two contexts and what is between them. -/
theorem exists_kept (h : ls.length > 2 * context) : ∃ kept, kept.length = ls.length - 2 * context ∧
    ls = ls.take context ++ (kept ++ ls.drop (ls.length - context)) := by
  refine ⟨(ls.drop context).take (ls.length - 2 * context), ?_, ?_⟩
  · rw [List.length_take, List.length_drop]
    omega
  · have hdrop : ls.drop (ls.length - context) =
        (ls.drop context).drop (ls.length - 2 * context) := by
      rw [List.drop_drop]
      congr 1
      omega
    rw [hdrop, List.take_append_drop, List.take_append_drop]

theorem patchLines_hunksFrom (hh : ∀ b ∈ h.blocks, b.OfLines) (hbs : ∀ b ∈ bs, b.OfLines)
    {gap : List Line} (hgap : n + gap.length = h.oldBefore) :
    patchLines n (gap ++ (h.old ++ bs.flatMap Block.old))
        (((hunksFrom h bs).filter (·.isShown)).flatMap Hunk.lines) =
      gap ++ (h.new ++ bs.flatMap Block.new) := by
  induction bs generalizing h n gap with
  | nil => exact @patchLines_shown _ _ [] gap [] [] [] hh hgap fun _ _ _ => rfl
  | cons b bs ih =>
    obtain ⟨hb, htail⟩ := List.forall_mem_cons.mp hbs
    have hadd := @ih n (h.add b) (ofLines_add hh hb) htail gap hgap
    simp only [old_add, new_add, List.append_assoc] at hadd
    cases b with
    | change old new => exact hadd
    | same ls =>
      have hpart (xs : List Line) (hxs : ∀ l ∈ xs, l ∈ ls) : (Block.same xs).OfLines :=
        ofLines_same fun l hl => hb.1 l (hxs l hl)
      have hfirst := ofLines_add hh (hpart (ls.take context) fun l => List.mem_of_mem_take)
      unfold hunksFrom
      split
      · rename_i hnil
        obtain rfl := List.isEmpty_iff.mp hnil
        have hshown := @patchLines_shown n _ [] gap (ls.drop context) [] [] hfirst hgap
          fun _ _ _ => rfl
        simp only [old_add, new_add, old_same, new_same, List.append_assoc, List.append_nil,
          List.take_append_drop] at hshown
        simpa using hshown
      · split
        · rename_i hlong
          -- The lines between the two contexts are in neither hunk.
          obtain ⟨kept, hkept, hls⟩ := exists_kept hlong
          have hlast := hpart (ls.drop (ls.length - context)) fun l => List.mem_of_mem_drop
          have hshown := @patchLines_shown n _ (hunksFrom (((h.add (.same (ls.take context))).after
            (ls.length - 2 * context)).add (.same (ls.drop (ls.length - context)))) bs) gap kept
            (ls.drop (ls.length - context) ++ bs.flatMap Block.old)
            (ls.drop (ls.length - context) ++ bs.flatMap Block.new) hfirst hgap ?_
          · simp only [old_add, new_add, old_same, new_same, List.append_assoc] at hshown
            have hwhole (xs : List Line) : ls ++ xs =
                ls.take context ++ (kept ++ (ls.drop (ls.length - context) ++ xs)) := by
              simpa only [List.append_assoc] using congrArg (· ++ xs) hls
            rw [List.flatMap_cons, List.flatMap_cons, old_same, new_same, hwhole, hwhole]
            exact hshown
          · intro n' gap' hgap'
            have hrest := @ih n' (((h.add (.same (ls.take context))).after
              (ls.length - 2 * context)).add (.same (ls.drop (ls.length - context))))
              (ofLines_add (by simp [Hunk.after]) hlast) htail gap'
              (hgap'.trans (by rw [hkept]; rfl))
            simpa only [old_add, new_add, old_after, new_after, old_same, new_same,
              List.nil_append] using hrest
        · exact hadd

theorem ofLines_hunksFrom (hh : ∀ b ∈ h.blocks, b.OfLines) (hbs : ∀ b ∈ bs, b.OfLines)
    {h' : Hunk} (hmem : h' ∈ hunksFrom h bs) : ∀ b ∈ h'.blocks, b.OfLines := by
  induction bs generalizing h with
  | nil =>
    obtain rfl := List.mem_singleton.mp hmem
    exact hh
  | cons b bs ih =>
    obtain ⟨hb, htail⟩ := List.forall_mem_cons.mp hbs
    cases b with
    | change old new => exact ih (ofLines_add hh hb) htail hmem
    | same ls =>
      have hfirst := ofLines_add hh
        (ofLines_same fun l hl => hb.1 l (@List.mem_of_mem_take _ context _ _ hl))
      unfold hunksFrom at hmem
      split at hmem
      · obtain rfl := List.mem_singleton.mp hmem
        exact hfirst
      · split at hmem
        · rcases List.mem_cons.mp hmem with rfl | hmem
          · exact hfirst
          · refine ih (ofLines_add (by simp [Hunk.after]) ?_) htail hmem
            exact ofLines_same fun l hl => hb.1 l (List.mem_of_mem_drop hl)
        · exact ih (ofLines_add hh hb) htail hmem

theorem ofLines_hunks (hbs : ∀ b ∈ bs, b.OfLines) {h' : Hunk} (hmem : h' ∈ hunks bs) :
    ∀ b ∈ h'.blocks, b.OfLines := by
  unfold hunks at hmem
  split at hmem
  · obtain ⟨hb, htail⟩ := List.forall_mem_cons.mp hbs
    refine ofLines_hunksFrom (List.forall_mem_singleton.mpr ?_) htail (List.mem_filter.mp hmem).1
    exact ofLines_same fun l hl => hb.1 l (List.mem_of_mem_drop hl)
  · exact ofLines_hunksFrom (by simp) hbs (List.mem_filter.mp hmem).1

/-- The hunks of blocks lead from the old lines of all of them to the new ones. -/
theorem patchLines_hunks (hbs : ∀ b ∈ bs, b.OfLines) :
    patchLines 0 (bs.flatMap Block.old) ((hunks bs).flatMap Hunk.lines) = bs.flatMap Block.new := by
  unfold hunks
  split
  · rename_i ls bs
    obtain ⟨hb, htail⟩ := List.forall_mem_cons.mp hbs
    have hlast : ∀ b ∈ [Block.same (ls.drop (ls.length - context))], b.OfLines :=
      List.forall_mem_singleton.mpr (ofLines_same fun l hl => hb.1 l (List.mem_of_mem_drop hl))
    have hgap : 0 + (ls.take (ls.length - context)).length = ls.length - context := by
      rw [List.length_take]
      omega
    have hfollowed := @patchLines_hunksFrom 0 bs
      ⟨ls.length - context, ls.length - context, [.same (ls.drop (ls.length - context))]⟩
      hlast htail _ hgap
    simp only [Hunk.old, Hunk.new, List.flatMap_singleton, old_same, new_same,
      ← List.append_assoc, List.take_append_drop] at hfollowed
    exact hfollowed
  · exact @patchLines_hunksFrom 0 bs ⟨0, 0, []⟩ (by simp) hbs [] rfl

/-! ### Following the diff of two texts -/

theorem old_prepend (r : Run Line) (bs : List Block) :
    (prepend r bs).flatMap Block.old = r.old ++ bs.flatMap Block.old := by
  obtain ⟨a, ls⟩ := r
  cases a <;> rcases bs with _ | ⟨⟨⟩, bs⟩ <;> simp [prepend, Run.old, Block.old]

theorem new_prepend (r : Run Line) (bs : List Block) :
    (prepend r bs).flatMap Block.new = r.new ++ bs.flatMap Block.new := by
  obtain ⟨a, ls⟩ := r
  cases a <;> rcases bs with _ | ⟨⟨⟩, bs⟩ <;> simp [prepend, Run.new, Block.new]

theorem old_blocksOf (s : Script Line) : (blocksOf s).flatMap Block.old = s.old := by
  induction s with
  | nil => rfl
  | cons r s ih => rw [blocksOf, List.foldr_cons, old_prepend, Script.old_cons, ← ih, blocksOf]

theorem new_blocksOf (s : Script Line) : (blocksOf s).flatMap Block.new = s.new := by
  induction s with
  | nil => rfl
  | cons r s ih => rw [blocksOf, List.foldr_cons, new_prepend, Script.new_cons, ← ih, blocksOf]

/-- The blocks between two texts. -/
def blocksBetween (old new : String) : List Block :=
  blocksOf (settled (script (linesOf old.toList) (linesOf new.toList)))

section Texts

variable (before after : String)

theorem old_blocksBetween :
    (blocksBetween before after).flatMap Block.old = linesOf before.toList :=
  (old_blocksOf _).trans (joins_settled (joins_script _ _)).1

theorem new_blocksBetween :
    (blocksBetween before after).flatMap Block.new = linesOf after.toList :=
  (new_blocksOf _).trans (joins_settled (joins_script _ _)).2

theorem ofLines_blocksBetween : ∀ b ∈ blocksBetween before after, b.OfLines := by
  intro b hb
  constructor <;> intro l hl
  · exact isLine_of_mem_linesOf (old_blocksBetween before after ▸ List.mem_flatMap.mpr ⟨b, hb, hl⟩)
  · exact isLine_of_mem_linesOf (new_blocksBetween before after ▸ List.mem_flatMap.mpr ⟨b, hb, hl⟩)

theorem patchLines_hunksBetween : patchLines 0 (linesOf before.toList)
    ((hunksBetween before after).flatMap Hunk.lines) = linesOf after.toList := by
  have hfollowed := patchLines_hunks (ofLines_blocksBetween before after)
  rwa [old_blocksBetween, new_blocksBetween] at hfollowed

theorem lays_hunksBetween :
    Lays ((hunksBetween before after).flatMap (·.text))
      ((hunksBetween before after).flatMap Hunk.lines) :=
  .flatMap fun _ hh => lays_hunk (ofLines_hunks (ofLines_blocksBetween before after) hh)

theorem lays_name {sign : Char} (hsign : endsLine sign = false) {name : String}
    (hname : Bare name.toList) :
    Lays (sign :: sign :: sign :: ' ' :: (name.toList ++ ['\n']))
      [sign :: sign :: sign :: ' ' :: (name.toList ++ ['\n'])] :=
  .of_ended hsign (.feed (.cons hsign (.cons hsign (.cons hsign (.cons (by decide) hname)))))

/-- Following the diff of two texts turns the first into the second. -/
theorem patch_unified {oldName newName : String} (hold : Bare oldName.toList)
    (hnew : Bare newName.toList) :
    patch before (unified oldName newName before after) = after := by
  have hfollowed := patchLines_hunksBetween before after
  have hlays := lays_hunksBetween before after
  cases hhunks : hunksBetween before after with
  | nil =>
    have hsame : linesOf before.toList = linesOf after.toList := by
      simpa [hhunks, patchLines_nil] using hfollowed
    simp [patch, unified, hhunks, patchLines_nil, linesOf, hsame, flatten_linesOf]
  | cons h hs =>
    have htext := (lays_name (by decide : endsLine '-' = false) hold).append
      ((lays_name (by decide : endsLine '+' = false) hnew).append hlays)
    have hunified : (unified oldName newName before after).toList =
        '-' :: '-' :: '-' :: ' ' :: (oldName.toList ++ ['\n']) ++
          ('+' :: '+' :: '+' :: ' ' :: (newName.toList ++ ['\n']) ++
            (hunksBetween before after).flatMap (·.text)) := by
      simp only [unified, hhunks, String.toList_append, String.toList_ofList, List.append_assoc]
      simp
    rw [patch, hunified, htext.linesOf_eq]
    simp only [List.singleton_append, List.drop_succ_cons, List.drop_zero]
    rw [hfollowed, flatten_linesOf, String.ofList_toList]

end Texts

end Workyard.Diff
