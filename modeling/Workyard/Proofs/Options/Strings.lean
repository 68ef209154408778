import Workyard.Proofs.Options.ReadBack

/-!
# The values of strings

The value of a string is what the code units of its elements make, unless an escape takes the
character that comes after it. Such an escape stands for one unit where the two elements stand for
two, so that the value is shorter than it ought to be.
-/

namespace Workyard.Options

set_option autoImplicit false

open Script Script.Node Script.Draft

variable {q : Quote} {es : List Element} {us vs xs ys : List Nat} {k : Nat}

/-- The value that a script gives to a string. -/
def stringValue (es : List Element) : String :=
  String.ofList (decode (es.flatMap Element.units))

/-- The value that is read from a string. -/
def heardValue (es : List Element) : String :=
  String.ofList (decode (heard es))

/-- An element is read as a part of the one before it. -/
def Element.Takes : Element → Element → Prop
  | .escape e, .raw c => e.takes c = true
  | _, _ => False

instance : DecidableRel Element.Takes
  | .escape e, .raw c => inferInstanceAs (Decidable (e.takes c = true))
  | .escape _, .escape _ => .isFalse id
  | .raw _, _ => .isFalse id

/-- A text is one sound node with this value, wherever it is read. -/
structure ReadsAs (q : Quote) (es : List Element) (s : String) : Prop where
  anywhere : ∀ {source : List Char} (d : Draft source) (rest : List Char) (fuel : Nat),
    es.length + 1 < fuel → d.rest = literal q es ++ rest →
      ∃ n, (stringOf n = .ok s ∧ n.hasFault = false) ∧ Leads d (q.read fuel d) [n] rest
  alone : parseLiteral (String.ofList (literal q es)) = .ok (.string s)

/-! ### What is read -/

theorem hasFault_of_leaves {source : List Char} {a b : Text.Mark source} {ns : List (Node source)}
    (h : ∀ n ∈ ns, n.IsLeafOf Kind.isQuotedPart) : (branch q.kind a b ns).hasFault = false := by
  have hquiet : Quiet "" (branch q.kind a b ns) :=
    .plain (by cases q <;> rfl) (by cases q <;> rfl) (quiet_of_leaves h)
  exact hquiet.sound.1

theorem begins_quote (q : Quote) (cs : List Char) : Begins (q.char :: cs) := by
  cases q <;> exact ⟨⟨rfl, rfl, rfl⟩, _, _, rfl, by decide⟩

theorem primary_of_literal {source : List Char} {d : Draft source} {cs : List Char} (fuel : Nat)
    (hd : d.rest = q.char :: cs) : primary (fuel + 1) d = q.read fuel d := by
  cases q <;> · rw [primary]; simp only [hd]; rfl

theorem bare_of_quote {source : List Char} {d : Draft source} {cs : List Char}
    (hd : d.rest = q.char :: cs) : Bare d := by
  cases q <;> exact bare_of_head hd (by decide) rfl

/-- A text that is read as one string is the value of the whole if nothing else is there. -/
theorem parseLiteral_of_read {cs : List Char} {k : Nat} {s : String} (hk : k ≤ cs.length)
    (hread : ∀ {source : List Char} (d : Draft source) (rest : List Char) (fuel : Nat), k < fuel →
      d.rest = q.char :: cs ++ rest →
        ∃ a b ns, ((∀ n ∈ ns, n.IsLeafOf Kind.isQuotedPart) ∧ cook (piecesOf ns) = s) ∧
          Leads d (q.read fuel d) [.branch q.kind a b ns] rest) :
    parseLiteral (String.ofList (q.char :: cs)) = .ok (.string s) := by
  have hchars : (String.ofList (q.char :: cs)).toList = q.char :: cs := String.toList_ofList
  refine parseLiteral_of_leads (fun rest => ?_) fun d hd => ?_
  · rw [hchars]
    exact begins_quote q (cs ++ rest)
  rw [hchars] at hd
  obtain ⟨j, hj⟩ : ∃ j, 16 * (enclosed (String.ofList (q.char :: cs))).length + 54 = j + 4 :=
    ⟨_, rfl⟩
  have hfuel : k < j := by
    rw [length_enclosed, hchars, List.length_cons] at hj
    omega
  obtain ⟨a, b, ns, ⟨hns, hvalue⟩, hleads⟩ := hread (fresh d.cursor) _ j hfuel hd
  have hopen : d.rest = q.char :: (cs ++ ['\n', ')']) := hd
  rw [← primary_of_literal j (d := fresh d.cursor) hopen] at hleads
  rw [hj]
  refine ⟨_, ⟨⟨?_, ?_, ?_, ?_⟩, ?_, hasFault_of_leaves hns⟩,
    leads_of_primary (bare_of_quote hopen) settled_enclosed hleads⟩
  · cases q <;> rfl
  · cases q <;> rintro ⟨⟩
  · cases q <;> rintro ⟨⟩
  · simp [text]
  · have hstring : stringOf (branch q.kind a b ns) = .ok s := by
      rw [stringOf_of_leaves hns, hvalue]
    cases q <;> exact congrArg (Except.map Json.string) hstring

theorem readsAs_heardValue (h : Divided q es) : ReadsAs q es (heardValue es) where
  anywhere d rest fuel hfuel hd := by
    obtain ⟨a, b, ns, hns, hleads⟩ := leads_read hfuel h hd
    refine ⟨_, ⟨?_, hasFault_of_leaves hns.leaves⟩, hleads⟩
    rw [stringOf_of_leaves hns.leaves, hns.value]
    rfl
  alone := by
    refine parseLiteral_of_read (k := es.length + 1) ?_ fun d rest fuel hfuel hd => ?_
    · rw [List.length_append, List.length_singleton]
      exact Nat.succ_le_succ (length_le_flatMap_chars h)
    · obtain ⟨a, b, ns, hns, hleads⟩ := leads_read hfuel h hd
      exact ⟨a, b, ns, ⟨hns.leaves, hns.value⟩, hleads⟩

/-! ### What is missing -/

/-- However the units before them go on, the first units make so many characters less than the
second. -/
def Shorter (k : Nat) (us vs : List Nat) : Prop :=
  ∀ before, (decode (before ++ vs)).length = (decode (before ++ us)).length + k

theorem Shorter.refl (us : List Nat) : Shorter 0 us us :=
  fun _ => rfl

theorem Shorter.append (h : Shorter k us vs) (xs : List Nat) : Shorter k (xs ++ us) (xs ++ vs) := by
  intro before
  rw [← List.append_assoc, ← List.append_assoc]
  exact h (before ++ xs)

/-- One unit in the place of two, none of them a half. -/
theorem Shorter.one {u v w : Nat} (h : Shorter k us vs) (hu : u < 0xD800) (hv : v < 0xD800)
    (hw : w < 0xD800) : Shorter (k + 1) (u :: us) (v :: w :: vs) := by
  intro before
  have hrest := h []
  rw [List.nil_append, List.nil_append] at hrest
  rw [decode_append_cons (not_half_of_lt hu), decode_append_cons (not_half_of_lt hv),
    decode_cons_of_not_high (not_half_of_lt hw).1]
  simp only [List.length_append, List.length_cons, hrest]
  omega

theorem codeOf_concat (radix : Nat) (ds : List Char) (c : Char) :
    codeOf radix (ds ++ [c]) = codeOf radix ds * radix + digitOf c := by
  rw [codeOf, List.foldl_append]
  rfl

theorem Escape.code_lt_of_takes {e : Escape} {c : Char} (he : e.Proper) (htakes : e.takes c = true) :
    e.code < 0xD800 ∧ c.toNat < 0xD800 ∧ e.taking c < 0xD800 := by
  cases e with
  | single d =>
    obtain ⟨rfl, hc⟩ := takes_single_iff.mp htakes
    have hc : c = '\n' ∨ c = '\u2028' ∨ c = '\u2029' := by
      simpa [Lexeme.isLineEnd, or_assoc] using hc
    have hsign : (Escape.single '?').code < 0xD800 := by decide
    refine ⟨hsign, ?_, hsign⟩
    rcases hc with rfl | rfl | rfl <;> decide
  | octal ds =>
    obtain ⟨hc, -⟩ := takes_octal_iff.mp htakes
    obtain ⟨-, -, -, hbyte⟩ := he
    have hdigit := digitOf_lt_of_isOctal hc
    have hle : c.toNat ≤ 55 := (isOctal_iff.mp hc).2
    rw [code, taking, codeOf_concat]
    omega
  | byte => cases htakes
  | unit => cases htakes
  | point => cases htakes

theorem pointUnits_of_lt {code : Nat} (h : code < 0xD800) : pointUnits code = [code] :=
  if_pos (by omega)

/-- Each character that an escape takes is missing in the value. -/
theorem exists_shorter (h : Divided q es) : ∃ k, Shorter k (heard es) (es.flatMap Element.units) ∧
    (k = 0 ↔ es.IsChain fun a b => ¬ a.Takes b) := by
  induction es using heard.induct with
  | case1 e c es htakes ih =>
    obtain ⟨k, hshorter, -⟩ := ih h.tail.tail
    obtain ⟨hcode, hc, htaking⟩ := Escape.code_lt_of_takes (h.fits _ List.mem_cons_self) htakes
    refine ⟨k + 1, ?_, iff_of_false (Nat.succ_ne_zero k) ?_⟩
    · rw [heard, if_pos htakes, List.flatMap_cons, List.flatMap_cons, Element.units, Element.units,
        pointUnits_of_lt hcode, pointUnits_of_lt hc, pointUnits_of_lt htaking]
      exact hshorter.one htaking hcode hc
    · intro hchain
      exact (List.isChain_cons_cons.mp hchain).1 htakes
  | case2 e c es htakes ih =>
    obtain ⟨k, hshorter, hk⟩ := ih h.tail
    refine ⟨k, ?_, ?_⟩
    · rw [heard, if_neg htakes, List.flatMap_cons]
      exact hshorter.append _
    · rw [hk, List.isChain_cons_cons]
      exact (and_iff_right htakes).symm
  | case3 e es hes ih =>
    obtain ⟨k, hshorter, hk⟩ := ih h.tail
    refine ⟨k, ?_, ?_⟩
    · rw [heard, List.flatMap_cons]
      · exact hshorter.append _
      · exact hes
    · rw [hk, List.isChain_cons]
      refine (and_iff_right fun b hb htakes => ?_).symm
      cases e with
      | raw => exact htakes
      | escape e =>
        cases es with
        | nil => cases hb
        | cons b' es =>
          obtain rfl : b' = b := by simpa using hb
          cases b' with
          | raw c => exact hes e c es rfl rfl
          | escape => exact htakes
  | case4 => exact ⟨0, .refl [], iff_of_true rfl .nil⟩

theorem heard_of_isChain (h : es.IsChain fun a b => ¬ a.Takes b) :
    heard es = es.flatMap Element.units := by
  induction es using heard.induct with
  | case1 e c es htakes => exact absurd htakes (List.isChain_cons_cons.mp h).1
  | case2 e c es htakes ih =>
    rw [heard, if_neg htakes, ih h.tail, List.flatMap_cons]
    rfl
  | case3 e es hes ih =>
    rw [heard, ih h.tail, List.flatMap_cons]
    exact hes
  | case4 => rfl

/-- The value that is read is that of the string just when no escape takes anything. -/
theorem heardValue_eq_iff (h : Divided q es) :
    heardValue es = stringValue es ↔ es.IsChain fun a b => ¬ a.Takes b := by
  constructor
  · intro heq
    obtain ⟨k, hshorter, hk⟩ := exists_shorter h
    have hlength := hshorter []
    rw [List.nil_append, List.nil_append, ← String.ofList_injective heq] at hlength
    exact hk.mp (by omega)
  · intro hchain
    rw [heardValue, heard_of_isChain hchain]
    rfl

/-- A string is read as a value, wherever it stands, and the value is that of the script unless an
escape takes the character that comes after it. -/
theorem literal_readsAs (h : Divided q es) : ReadsAs q es (heardValue es) ∧
    (heardValue es = stringValue es ↔ es.IsChain fun a b => ¬ a.Takes b) :=
  ⟨readsAs_heardValue h, heardValue_eq_iff h⟩

/-- Halves of three kinds, of which two make one character. -/
def halves : List Element :=
  [.escape (.unit 'D' '8' '3' 'd'), .escape (.point ['D', 'E', '0', '0']), .escape (.octal ['1', '0', '1']),
    .escape (.point ['d', '8', '0', '0']), .raw 'é', .escape (.unit 'd' 'e' '0' '0')]

theorem literal_readsAs_halves : Divided .backtick halves ∧
    ReadsAs .backtick halves "😀A\uFFFDé\uFFFD" ∧ stringValue halves = "😀A\uFFFDé\uFFFD" := by
  have hdivided : Divided .backtick halves := by decide
  have hvalue : heardValue halves = "😀A\uFFFDé\uFFFD" := by decide
  obtain ⟨hreads, hiff⟩ := literal_readsAs hdivided
  refine ⟨hdivided, hvalue ▸ hreads, (hvalue ▸ hiff.mpr ?_ : _ = _).symm⟩
  decide

/-- The third digit does not belong to the octal escape, which would stand for more than a byte. -/
theorem octal_takes_digit : ∃ es, Divided .single es ∧
    String.ofList (literal .single es) = "'\\400'" ∧ stringValue es = " 0" ∧
    parseLiteral "'\\400'" = .ok (.string "\u0100") := by
  have hdivided : Divided .single [.escape (.octal ['4', '0']), .raw '0'] := by decide
  exact ⟨_, hdivided, by decide, by decide, (readsAs_heardValue hdivided).alone⟩

end Workyard.Options
