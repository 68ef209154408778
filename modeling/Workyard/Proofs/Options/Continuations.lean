import Workyard.Proofs.Options.Strings

/-!
# Line continuations

A backslash before the end of a line stands for nothing, wherever it is put between two parts of a
string, but for two places: where it keeps the halves of a character apart, and where it ends an escape
that would otherwise take the character after it.
-/

namespace Workyard.Options

set_option autoImplicit false

open Script Script.Node Script.Draft

variable {source : List Char} {q : Quote} {c : Char}

/-- The ends of a line. -/
inductive LineEnd where
  | feed | pair | lone | separator | paragraph
  deriving DecidableEq

def LineEnd.chars : LineEnd → List Char
  | .feed => ['\n']
  | .pair => ['\r', '\n']
  | .lone => ['\r']
  | .separator => ['\u2028']
  | .paragraph => ['\u2029']

/-- A part of the text of a string. -/
inductive Part where
  | raw (c : Char)
  | escape (e : Escape)
  | continuation (l : LineEnd)

namespace Part

/-- What comes after the backslash. -/
def body : Part → List Char
  | .raw _ => []
  | .escape e => e.body
  | .continuation l => l.chars

def chars : Part → List Char
  | .raw c => [c]
  | p => '\\' :: p.body

def piece : Part → Piece
  | .raw c => .raw [c]
  | .escape e => .unit e.code
  | .continuation _ => .continuation

/-- Whether a character that comes after a part is read with it. -/
def takes : Part → Char → Bool
  | .escape e, c => e.takes c
  | .continuation .lone, c => Lexeme.isLineEnd c
  | _, _ => false

/-- What a part stands for with the character that it takes. -/
def taking : Part → Char → Piece
  | .escape e, c => .unit (e.taking c)
  | p, _ => p.piece

/-- A part is read with the one before it. -/
def Takes : Part → Part → Prop
  | p, .raw c => p.takes c = true
  | _, _ => False

/-- Two escapes stand for the halves of one character. -/
def Joins : Part → Part → Prop
  | .escape e, .escape e' => isHighHalf e.code = true ∧ isLowHalf e'.code = true
  | _, _ => False

end Part

/-- The parts that there are between two quotes. -/
def Quote.Permits (q : Quote) : Part → Prop
  | .raw c => q.Holds c
  | .escape e => e.Proper
  | .continuation _ => True

/-- Whether one part may come after another. A return with a feed after it is one end of a line. -/
def Quote.Precedes (q : Quote) : Part → Part → Prop
  | .raw c, .raw d => ¬ (q = .backtick ∧ c = '$' ∧ d = '\x7b')
  | .escape e, .raw d => e.EndsBefore d
  | .continuation .lone, .raw d => d ≠ '\n'
  | _, _ => True

/-- A sequence of parts that is the text of a string. -/
structure Composed (q : Quote) (ps : List Part) : Prop where
  permits : ∀ p ∈ ps, q.Permits p
  precedes : ps.IsChain q.Precedes

instance (q : Quote) : DecidablePred q.Permits
  | .raw c => inferInstanceAs (Decidable (q.Fits (.raw c)))
  | .escape e => inferInstanceAs (Decidable e.Proper)
  | .continuation _ => .isTrue trivial

instance (q : Quote) : DecidableRel q.Precedes
  | .raw c, .raw d => inferInstanceAs (Decidable (q.Follows (.raw c) (.raw d)))
  | .escape e, .raw d => inferInstanceAs (Decidable (e.EndsBefore d))
  | .continuation .lone, .raw d => inferInstanceAs (Decidable (d ≠ '\n'))
  | .raw _, .escape _ | .raw _, .continuation _ => .isTrue trivial
  | .escape _, .escape _ | .escape _, .continuation _ => .isTrue trivial
  | .continuation .lone, .escape _ | .continuation .lone, .continuation _ => .isTrue trivial
  | .continuation .feed, _ | .continuation .pair, _ => .isTrue trivial
  | .continuation .separator, _ | .continuation .paragraph, _ => .isTrue trivial

instance (q : Quote) (ps : List Part) : Decidable (Composed q ps) :=
  decidable_of_iff ((∀ p ∈ ps, q.Permits p) ∧ ps.IsChain q.Precedes)
    ⟨fun h => ⟨h.1, h.2⟩, fun h => ⟨h.permits, h.precedes⟩⟩

/-- The text of a string in its quotes. -/
def quotation (q : Quote) (ps : List Part) : List Char :=
  q.char :: (ps.flatMap Part.chars ++ [q.char])

/-- A text is one sound node with this value, wherever it is read. -/
structure QuotedAs (q : Quote) (ps : List Part) (s : String) : Prop where
  anywhere : ∀ {source : List Char} (d : Draft source) (rest : List Char) (fuel : Nat),
    ps.length + 1 < fuel → d.rest = quotation q ps ++ rest →
      ∃ n, (stringOf n = .ok s ∧ n.hasFault = false) ∧ Leads d (q.read fuel d) [n] rest
  alone : parseLiteral (String.ofList (quotation q ps)) = .ok (.string s)

/-- The pieces that are read from parts, when one takes what comes after it. -/
def heardPieces : List Part → List Piece
  | p :: .raw c :: ps =>
    if p.takes c then p.taking c :: heardPieces ps else p.piece :: heardPieces (.raw c :: ps)
  | p :: ps => p.piece :: heardPieces ps
  | [] => []

/-! ### Escapes -/

namespace Part

variable {p : Part} {cs : List Char}

/-- A part behind a backslash reaches to its end, unless it takes what comes after it. -/
theorem escape_body (hp : q.Permits p) (hraw : ∀ c, p ≠ .raw c)
    (hafter : ∀ d ∈ cs.head?, p.takes d = false) :
    Lexeme.escape ('\\' :: (p.body ++ cs)) = p.body.length + 1 := by
  cases p with
  | raw c => exact absurd rfl (hraw c)
  | escape e => exact Escape.escape_body hp hafter
  | continuation l =>
    cases l with
    | lone =>
      show Lexeme.escape ('\\' :: '\r' :: cs) = 2
      cases cs with
      | nil => rfl
      | cons d cs =>
        show (if Lexeme.isLineEnd d then 3 else 2) = 2
        rw [show Lexeme.isLineEnd d = false from hafter d rfl]
        rfl
    | _ => rfl

theorem escape_taking (hp : q.Permits p) (hprecedes : q.Precedes p (.raw c))
    (htakes : p.takes c = true) :
    Lexeme.escape ('\\' :: (p.body ++ c :: cs)) = p.body.length + 2 := by
  cases p with
  | raw => cases htakes
  | escape e => exact Escape.escape_taking hp hprecedes htakes
  | continuation l =>
    cases l with
    | lone =>
      show (if Lexeme.isLineEnd c then 3 else 2) = 3
      rw [show Lexeme.isLineEnd c = true from htakes]
      rfl
    | _ => cases htakes

theorem escaped_body (hp : q.Permits p) (hraw : ∀ c, p ≠ .raw c) : escaped p.body = p.piece := by
  cases p with
  | raw c => exact absurd rfl (hraw c)
  | escape e => exact Escape.escaped_body hp
  | continuation l => cases l <;> rfl

theorem escaped_taking (hp : q.Permits p) (htakes : p.takes c = true) :
    escaped (p.body ++ [c]) = p.taking c := by
  cases p with
  | raw => cases htakes
  | escape e => exact Escape.escaped_taking hp htakes
  | continuation l =>
    cases l with
    | lone => rfl
    | _ => cases htakes

end Part

/-! ### Pieces -/

section Pieces

variable {xs ys zs : List Piece} {ns ms : List (Node source)} {run : List Char} {pending : Option Nat}

/-- What is read may go on in two ways that come to the same. -/
theorem cookFrom_append_congr (h : ∀ pending, cookFrom pending ys = cookFrom pending zs)
    (xs : List Piece) (pending : Option Nat) :
    cookFrom pending (xs ++ ys) = cookFrom pending (xs ++ zs) := by
  induction xs generalizing pending with
  | nil => exact h pending
  | cons x xs ih =>
    cases x with
    | raw text =>
      rw [List.cons_append, List.cons_append, cookFrom, cookFrom, ih, ih]
    | continuation =>
      rw [List.cons_append, List.cons_append, cookFrom, cookFrom, ih]
    | unit code =>
      cases pending with
      | none => rw [List.cons_append, List.cons_append, cookFrom, cookFrom, ih, ih]
      | some high => rw [List.cons_append, List.cons_append, cookFrom, cookFrom, ih, ih]

/-- A run of characters is cooked as if they stood one by one. -/
theorem cookFrom_run (hrun : run ≠ []) (pending : Option Nat) (ys : List Piece) :
    cookFrom pending (.raw run :: ys) = cookFrom pending (run.map (fun c => .raw [c]) ++ ys) := by
  have hnone (run : List Char) : cookFrom none (run.map (fun c => Piece.raw [c]) ++ ys) =
      run ++ cookFrom none ys := by
    induction run with
    | nil => rfl
    | cons c run ih =>
      show [] ++ [c] ++ cookFrom none (run.map (fun c => Piece.raw [c]) ++ ys) = _
      rw [ih]
      rfl
  obtain ⟨c, run, rfl⟩ := List.exists_cons_of_ne_nil hrun
  show flush pending ++ (c :: run) ++ cookFrom none ys =
    flush pending ++ [c] ++ cookFrom none (run.map (fun c => Piece.raw [c]) ++ ys)
  rw [hnone]
  simp

/-- The nodes of a text between quotes, with the pieces that they come to. -/
structure Comes (ns : List (Node source)) (xs : List Piece) : Prop where
  leaves : ∀ n ∈ ns, n.IsLeafOf Kind.isQuotedPart
  cooks : ∀ pending ys, cookFrom pending (piecesOf ns ++ ys) = cookFrom pending (xs ++ ys)

theorem Comes.append (h : Comes ns xs) (h' : Comes ms ys) : Comes (ns ++ ms) (xs ++ ys) where
  leaves := List.forall_mem_append.mpr ⟨h.leaves, h'.leaves⟩
  cooks pending zs := by
    rw [piecesOf_append, List.append_assoc, h.cooks, List.append_assoc]
    exact cookFrom_append_congr (fun pending => h'.cooks pending zs) xs pending

theorem Comes.value (h : Comes ns xs) : cook (piecesOf ns) = cook xs := by
  have hcooks := h.cooks none []
  rw [List.append_nil, List.append_nil] at hcooks
  exact congrArg String.ofList hcooks

theorem comes_sign (m : Text.Mark source) (s : String) : Comes [leaf .punctuation m s] [] where
  leaves := List.forall_mem_singleton.mpr ⟨_, m, s, rfl, rfl⟩
  cooks _ _ := rfl

theorem comes_escape (m : Text.Mark source) {cs : List Char} {x : Piece} (h : escaped cs = x) :
    Comes [leaf .escape m (String.ofList ('\\' :: cs))] [x] where
  leaves := List.forall_mem_singleton.mpr ⟨_, m, _, rfl, rfl⟩
  cooks pending ys := by
    have hpieces : piecesOf [leaf .escape m (String.ofList ('\\' :: cs))] = [x] := by
      simp only [piecesOf, kind, text, String.toList_ofList, List.drop_succ_cons, List.drop_zero, h]
    rw [hpieces]

theorem comes_fragment (m : Text.Mark source) (hrun : run ≠ []) :
    Comes [leaf .fragment m (String.ofList run)] (run.map fun c => .raw [c]) where
  leaves := List.forall_mem_singleton.mpr ⟨_, m, _, rfl, rfl⟩
  cooks pending ys := by
    have hpieces : piecesOf [leaf .fragment m (String.ofList run)] = [.raw run] := by
      simp only [piecesOf, kind, text, String.toList_ofList]
    rw [hpieces]
    exact cookFrom_run hrun pending ys

end Pieces

/-! ### Reading -/

section Reading

variable {d : Draft source} {fuel : Nat} {ps : List Part} {p : Part} {run cs rest : List Char}
  {xs : List Piece}

theorem Composed.tail (h : Composed q (p :: ps)) : Composed q ps :=
  ⟨(List.forall_mem_cons.mp h.permits).2, h.precedes.tail⟩

theorem Composed.right {ps' : List Part} (h : Composed q (ps ++ ps')) : Composed q ps' :=
  ⟨(List.forall_mem_append.mp h.permits).2, h.precedes.right_of_append⟩

/-- The characters of a run stand for themselves. -/
theorem Composed.fragment_eq (h : Composed q (run.map .raw ++ ps))
    (hafter : cs.head? = some q.char ∨ cs.head? = some '\\') :
    q.fragment (run ++ cs) = run.length := by
  have hfits : ∀ e ∈ run.map Element.raw, q.Fits e := by
    rw [List.forall_mem_map]
    intro c hc
    exact h.permits _ (List.mem_append_left _ (List.mem_map_of_mem hc))
  have hchain : run.IsChain fun c d => q.Precedes (.raw c) (.raw d) :=
    (List.isChain_map _).mp h.precedes.left_of_append
  have hfollows : (run.map Element.raw).IsChain q.Follows := (List.isChain_map _).mpr hchain
  have hdivided : Divided q (run.map .raw ++ []) := by
    rw [List.append_nil]
    exact ⟨hfits, hfollows⟩
  exact hdivided.fragment_eq hafter

theorem comes_past (hd : d.rest = run ++ cs) :
    ∃ ns, Comes ns (run.map fun c => .raw [c]) ∧ Leads d (past run.length d) ns cs := by
  cases run with
  | nil => exact ⟨[], ⟨List.forall_mem_nil _, fun _ _ => rfl⟩, ⟨rfl, hd⟩⟩
  | cons c run => exact ⟨_, comes_fragment _ (List.cons_ne_nil c run), leads_token .fragment hd⟩

/-- Reading comes past a run and what follows it behind a backslash. -/
theorem comes_tail_escape {body : List Char} {x : Piece}
    (hrun : q.fragment (run ++ '\\' :: (body ++ cs)) = run.length)
    (hescape : Lexeme.escape ('\\' :: (body ++ cs)) = body.length + 1) (hpiece : escaped body = x)
    (hd : d.rest = run ++ '\\' :: (body ++ cs))
    (hrest : ∀ d' : Draft source, d'.rest = cs →
      ∃ ns, Comes ns xs ∧ Leads d' (q.tail fuel d') ns rest) :
    ∃ ns, Comes ns (run.map (fun c => .raw [c]) ++ x :: xs) ∧
      Leads d (q.tail (fuel + 1) d) ns rest := by
  obtain ⟨ns, hns, hleads⟩ := comes_past hd
  rw [← hrun, ← hd] at hleads
  have htoken := leads_token .escape (show _ = ('\\' :: body) ++ cs from hleads.rest_eq)
  obtain ⟨ms, hms, hleads'⟩ := hrest _ htoken.rest_eq
  rw [tail_escape hleads.rest_eq hescape]
  exact ⟨_, hns.append ((comes_escape _ hpiece).append hms), hleads.trans (htoken.trans hleads')⟩

theorem Part.chars_of_ne_raw (h : ∀ c, p ≠ .raw c) : p.chars = '\\' :: p.body := by
  cases p with
  | raw c => exact absurd rfl (h c)
  | escape => rfl
  | continuation => rfl

/-- The sign that ends a string and a backslash are not taken. -/
theorem Part.not_takes (hc : c = q.char ∨ c = '\\') : p.takes c = false := by
  have hline : Lexeme.isLineEnd c = false := by
    rcases hc with rfl | rfl
    · cases q <;> decide
    · decide
  cases p with
  | raw => rfl
  | escape e => exact Escape.not_takes hc
  | continuation l =>
    cases l with
    | lone => exact hline
    | _ => rfl

/-- What comes after a part that is no raw character is a backslash or the end. -/
theorem head?_partChars (h : ∀ c ps', ps ≠ .raw c :: ps') (rest : List Char) :
    (ps.flatMap Part.chars ++ q.char :: rest).head? = some q.char ∨
      (ps.flatMap Part.chars ++ q.char :: rest).head? = some '\\' := by
  cases ps with
  | nil => exact .inl rfl
  | cons p ps =>
    cases p with
    | raw c => exact absurd rfl (h c ps)
    | escape => exact .inr rfl
    | continuation => exact .inr rfl

/-- Reading finds the parts behind a run, up to the closing quote. -/
def ReadsBehind (source : List Char) (q : Quote) (ps : List Part) (rest : List Char) : Prop :=
  ∀ (run : List Char) (fuel : Nat) (d : Draft source), ps.length < fuel →
    Composed q (run.map .raw ++ ps) → d.rest = run ++ (ps.flatMap Part.chars ++ q.char :: rest) →
    ∃ ns, Comes ns (run.map (fun c => .raw [c]) ++ heardPieces ps) ∧ Leads d (q.tail fuel d) ns rest

/-- A part that takes nothing: a raw character joins the run, and all others end it. -/
theorem readsBehind_cons (hheard : heardPieces (p :: ps) = p.piece :: heardPieces ps)
    (halone : ∀ d ∈ (ps.flatMap Part.chars ++ q.char :: rest).head?, p.takes d = false)
    (ih : ReadsBehind source q ps rest) : ReadsBehind source q (p :: ps) rest := by
  intro run fuel d hfuel h hd
  rw [List.length_cons] at hfuel
  rw [hheard]
  by_cases hraw : ∃ c, p = .raw c
  · obtain ⟨c, rfl⟩ := hraw
    have hlonger : Composed q ((run ++ [c]).map .raw ++ ps) := by simpa using h
    have hd : d.rest = (run ++ [c]) ++ (ps.flatMap Part.chars ++ q.char :: rest) := by
      rw [hd]
      simp [Part.chars]
    have hread := ih (run ++ [c]) fuel d (Nat.lt_of_succ_lt hfuel) hlonger hd
    simpa [Part.piece] using hread
  · rw [not_exists] at hraw
    obtain ⟨k, rfl⟩ : ∃ k, fuel = k + 1 := ⟨fuel - 1, by omega⟩
    have hpermits := (List.forall_mem_cons.mp h.right.permits).1
    have hd : d.rest = run ++ '\\' :: (p.body ++ (ps.flatMap Part.chars ++ q.char :: rest)) := by
      rw [hd]
      simp [Part.chars_of_ne_raw hraw]
    exact comes_tail_escape (h.fragment_eq (.inr rfl)) (Part.escape_body hpermits hraw halone)
      (Part.escaped_body hpermits hraw) hd fun d' hd' =>
        ih [] k d' (by omega) h.right.tail hd'

theorem heardPieces_cons (h : ∀ c ps', ps = .raw c :: ps' → p.takes c = false) :
    heardPieces (p :: ps) = p.piece :: heardPieces ps := by
  rw [heardPieces.eq_def (p :: ps)]
  split
  · rename_i p' c ps' heq
    obtain ⟨rfl, rfl⟩ := List.cons.inj heq
    rw [h c ps' rfl, if_neg Bool.false_ne_true]
  · rename_i heq
    obtain ⟨rfl, rfl⟩ := List.cons.inj heq
    rfl
  · rename_i heq
    cases heq

theorem readsBehind_of_composed (h : Composed q ps) (rest : List Char) :
    ReadsBehind source q ps rest := by
  induction ps using heardPieces.induct with
  | case1 p c ps htakes ih =>
    -- The part and the character that it takes are one token.
    intro run fuel d hfuel h hd
    obtain ⟨k, rfl⟩ : ∃ k, fuel = k + 1 := ⟨fuel - 1, by omega⟩
    have hpermits := (List.forall_mem_cons.mp h.right.permits).1
    have hprecedes := (List.isChain_cons_cons.mp h.right.precedes).1
    have hraw : ∀ x, p ≠ .raw x := by
      rintro x rfl
      cases htakes
    have hd : d.rest = run ++ '\\' :: ((p.body ++ [c]) ++
        (ps.flatMap Part.chars ++ q.char :: rest)) := by
      rw [hd, List.flatMap_cons, List.flatMap_cons, Part.chars_of_ne_raw hraw]
      simp [Part.chars]
    have hescape : Lexeme.escape ('\\' ::
        (p.body ++ c :: (ps.flatMap Part.chars ++ q.char :: rest))) = p.body.length + 2 :=
      Part.escape_taking hpermits hprecedes htakes
    rw [heardPieces, if_pos htakes]
    simp only [List.length_cons] at hfuel
    refine comes_tail_escape (h.fragment_eq (.inr rfl)) ?_ (Part.escaped_taking hpermits htakes) hd
      fun d' hd' => ih h.right.tail.tail [] k d' (by omega) h.right.tail.tail hd'
    simpa using hescape
  | case2 p c ps htakes ih =>
    rw [Bool.not_eq_true] at htakes
    refine readsBehind_cons (heardPieces_cons ?_) (fun d hd => ?_) (ih h.tail)
    · rintro x ps' ⟨⟩
      exact htakes
    · obtain rfl : c = d := by simpa [Part.chars] using hd
      exact htakes
  | case3 p ps hps ih =>
    refine readsBehind_cons (heardPieces_cons ?_) (fun d hd => ?_) (ih h.tail)
    · intro c ps' heq
      exact absurd heq (hps c ps')
    · have hhead := head?_partChars (q := q) (fun c ps' heq => hps c ps' heq) rest
      rw [Option.mem_def] at hd
      rw [hd, Option.some_inj, Option.some_inj] at hhead
      exact Part.not_takes hhead
  | case4 =>
    intro run fuel d hfuel h hd
    obtain ⟨k, rfl⟩ : ∃ k, fuel = k + 1 := ⟨fuel - 1, by omega⟩
    obtain ⟨ns, hns, hleads⟩ := comes_past hd
    have hd : d.rest = run ++ q.char :: rest := hd
    have hrun : q.fragment (run ++ q.char :: rest) = run.length := h.fragment_eq (.inl rfl)
    rw [← hrun, ← hd] at hleads
    rw [tail_close hleads.rest_eq]
    exact ⟨_, hns.append (comes_sign _ _), hleads.trans (leads_sign hleads.rest_eq)⟩

theorem length_le_flatMap_partChars (ps : List Part) : ps.length ≤ (ps.flatMap Part.chars).length := by
  induction ps with
  | nil => exact Nat.le_refl 0
  | cons p ps ih =>
    have hone : 1 ≤ p.chars.length := by
      cases p <;> simp [Part.chars]
    rw [List.flatMap_cons, List.length_append, List.length_cons]
    omega

/-- A text in quotes is one node, which comes to the pieces that are heard. -/
theorem leads_quotation {rest : List Char} (hfuel : ps.length + 1 < fuel) (h : Composed q ps)
    (hd : d.rest = quotation q ps ++ rest) :
    ∃ a b ns, Comes ns (heardPieces ps) ∧
      Leads d (q.read fuel d) [.branch q.kind a b ns] rest := by
  have hopen : d.rest = q.char :: (ps.flatMap Part.chars ++ q.char :: rest) := by
    rw [hd, quotation]
    simp
  have hlength : ps.length ≤ (ps.flatMap Part.chars ++ q.char :: rest).length := by
    rw [List.length_append]
    exact Nat.le_add_right_of_le (length_le_flatMap_partChars ps)
  obtain ⟨a, b, m, s, ns, hns, hleads⟩ := leads_read_of_tail hfuel hlength hopen
    fun k d' hk hd' => readsBehind_of_composed h rest [] k d' hk h hd'
  exact ⟨a, b, _, (comes_sign m s).append hns, hleads⟩

end Reading

/-! ### What pieces make -/

section Values

variable {xs ys : List Piece} {x y : Piece} {w : List Char} {pending : Option Nat} {code : Nat}

/-- The high half that a piece leaves behind. -/
def Piece.half : Piece → Option Nat
  | .unit code => if isHighHalf code then some code else none
  | _ => none

def Piece.IsLow : Piece → Prop
  | .unit code => isLowHalf code = true
  | _ => False

/-- A piece has its value by itself, whatever is before it and after it. -/
def Standalone (x : Piece) (w : List Char) : Prop :=
  ∀ pending ys, cookFrom pending (x :: ys) = flush pending ++ (w ++ cookFrom none ys)

theorem standalone_continuation : Standalone .continuation [] :=
  fun _ _ => rfl

theorem standalone_unit (h : code < 0xD800) : Standalone (.unit code) [charOf code] := by
  obtain ⟨hhigh, hlow⟩ := not_half_of_lt h
  intro pending ys
  rw [cookFrom_unit_of_not_low hlow, cookFrom, hhigh]
  rfl

/-- A piece goes on with the half that it leaves behind. -/
theorem cookFrom_cons (hx : x ≠ .raw []) (pending : Option Nat) :
    ∃ out, ∀ ys, cookFrom pending (x :: ys) = out ++ cookFrom x.half ys := by
  cases x with
  | raw text =>
    cases text with
    | nil => exact absurd rfl hx
    | cons c text => exact ⟨flush pending ++ (c :: text), fun ys => rfl⟩
  | continuation => exact ⟨flush pending, fun ys => rfl⟩
  | unit code =>
    have hnone : ∃ out, ∀ ys, cookFrom none (.unit code :: ys) =
        out ++ cookFrom (Piece.unit code).half ys := by
      cases hhigh : isHighHalf code with
      | false =>
        have hhalf : (Piece.unit code).half = none := by
          rw [Piece.half, hhigh]
          rfl
        refine ⟨[charOf code], fun ys => ?_⟩
        rw [cookFrom, hhigh, hhalf]
        rfl
      | true =>
        have hhalf : (Piece.unit code).half = some code := by
          rw [Piece.half, hhigh]
          rfl
        refine ⟨[], fun ys => ?_⟩
        rw [cookFrom, hhigh, hhalf]
        rfl
    obtain ⟨out, hout⟩ := hnone
    cases hlow : isLowHalf code with
    | false =>
      refine ⟨flush pending ++ out, fun ys => ?_⟩
      rw [cookFrom_unit_of_not_low hlow, hout, List.append_assoc]
    | true =>
      cases pending with
      | none => exact ⟨out, hout⟩
      | some high =>
        have hhigh : isHighHalf code = false := by
          rw [isLowHalf_iff] at hlow
          rw [Bool.eq_false_iff, ne_eq, isHighHalf_iff]
          omega
        refine ⟨[joinHalves high code], fun ys => ?_⟩
        rw [cookFrom_unit_of_low hlow, Piece.half, hhigh]
        rfl

/-- Cooking goes on behind a piece with the half that it leaves behind. -/
theorem cookFrom_snoc (hx : x ≠ .raw []) (xs : List Piece) (pending : Option Nat) :
    ∃ out, ∀ ys, cookFrom pending (xs ++ x :: ys) = out ++ cookFrom x.half ys := by
  induction xs generalizing pending with
  | nil => exact cookFrom_cons hx pending
  | cons y xs ih =>
    by_cases hy : y = .raw []
    · subst hy
      exact ih pending
    · obtain ⟨out, hout⟩ := cookFrom_cons hy pending
      obtain ⟨out', hout'⟩ := ih y.half
      refine ⟨out ++ out', fun ys => ?_⟩
      rw [List.cons_append, hout, hout', List.append_assoc]

theorem cookFrom_standalone (hx : Standalone x w) (xs ys : List Piece) (pending : Option Nat) :
    cookFrom pending (xs ++ x :: ys) = cookFrom pending xs ++ (w ++ cookFrom none ys) := by
  induction xs generalizing pending with
  | nil => exact hx pending ys
  | cons y xs ih =>
    by_cases hy : y = .raw []
    · subst hy
      exact ih pending
    · obtain ⟨out, hout⟩ := cookFrom_cons hy pending
      rw [List.cons_append, hout, hout, ih, List.append_assoc]

/-- A half that is left behind stays alone unless its other half comes next. -/
theorem cookFrom_pending_eq_iff {high : Nat} (hy : y ≠ .raw []) :
    cookFrom (some high) (y :: ys) = replacement :: cookFrom none (y :: ys) ↔ ¬ y.IsLow := by
  cases y with
  | raw text =>
    cases text with
    | nil => exact absurd rfl hy
    | cons c text => exact iff_of_true rfl id
  | continuation => exact iff_of_true rfl id
  | unit code =>
    cases hlow : isLowHalf code with
    | false =>
      refine iff_of_true (cookFrom_unit_of_not_low hlow) fun hlow' => ?_
      exact Bool.false_ne_true (hlow.symm.trans hlow')
    | true =>
      have hhigh : isHighHalf code = false := by
        rw [isLowHalf_iff] at hlow
        rw [Bool.eq_false_iff, ne_eq, isHighHalf_iff]
        omega
      refine iff_of_false (fun heq => ?_) fun hnot => hnot hlow
      have hlength := congrArg List.length heq
      rw [cookFrom_unit_of_low hlow, cookFrom, hhigh, if_neg Bool.false_ne_true] at hlength
      simp at hlength

/-- Pieces can be cooked apart unless halves of one character meet. -/
theorem cookFrom_append_eq_iff (hx : x ≠ .raw []) (hy : y ≠ .raw []) :
    cookFrom none (xs ++ x :: y :: ys) = cookFrom none (xs ++ [x]) ++ cookFrom none (y :: ys) ↔
      ¬ (x.half.isSome = true ∧ y.IsLow) := by
  obtain ⟨out, hout⟩ := cookFrom_snoc hx xs none
  rw [hout, hout, List.append_assoc, List.append_cancel_left_eq]
  cases hpending : x.half with
  | none => exact iff_of_true rfl (by simp)
  | some high =>
    show cookFrom (some high) (y :: ys) = replacement :: cookFrom none (y :: ys) ↔ _
    rw [cookFrom_pending_eq_iff hy]
    simp

end Values

/-! ### What parts make -/

section Meetings

variable {p a b : Part} {ps before after : List Part}

/-- The characters that are read from parts. -/
def heardChars (ps : List Part) : List Char :=
  cookFrom none (heardPieces ps)

theorem heardPieces_append (h : ∀ a ∈ before.getLast?, ∀ b ∈ after.head?, ¬ a.Takes b) :
    heardPieces (before ++ after) = heardPieces before ++ heardPieces after := by
  induction before using heardPieces.induct with
  | case1 p c ps htakes ih =>
    have hlast : ∀ a ∈ ps.getLast?, ∀ b ∈ after.head?, ¬ a.Takes b := by
      intro a ha
      exact h a (List.mem_getLast?_cons (List.mem_getLast?_cons ha))
    rw [List.cons_append, List.cons_append, heardPieces, if_pos htakes, heardPieces, if_pos htakes,
      ih hlast, List.cons_append]
  | case2 p c ps htakes ih =>
    rw [List.cons_append, List.cons_append, heardPieces, if_neg htakes, heardPieces, if_neg htakes,
      ← List.cons_append, ih fun a ha => h a (List.mem_getLast?_cons ha), List.cons_append]
  | case3 p ps hps ih =>
    have hapart : ∀ c ps', ps ++ after = .raw c :: ps' → p.takes c = false := by
      intro c ps' heq
      cases ps with
      | nil =>
        rw [List.nil_append] at heq
        have hnot := h p rfl (.raw c) (by rw [heq]; rfl)
        simpa [Part.Takes] using hnot
      | cons x ps =>
        obtain rfl := (List.cons.inj heq).1
        exact absurd rfl (hps c ps)
    rw [List.cons_append, heardPieces_cons hapart, ih fun a ha => h a (List.mem_getLast?_cons ha),
      heardPieces_cons fun c ps' heq => absurd heq (hps c ps'), List.cons_append]
  | case4 => rfl

theorem heardPieces_singleton (a : Part) : heardPieces [a] = [a.piece] :=
  heardPieces_cons nofun

theorem Part.piece_ne (a : Part) : a.piece ≠ .raw [] := by
  cases a <;> simp [Part.piece]

theorem Part.exists_of_takes (h : a.Takes b) : ∃ c, b = .raw c ∧ a.takes c = true := by
  cases b with
  | raw c => exact ⟨c, rfl, h⟩
  | escape => exact absurd h id
  | continuation => exact absurd h id

/-- A part that takes the next one is not taken itself. -/
theorem Part.not_takes_of_takes (h : p.takes c = true) (a : Part) : ¬ a.Takes p := by
  intro htakes
  obtain ⟨d, rfl, -⟩ := Part.exists_of_takes htakes
  cases h

/-- What takes a character is no half, alone and with the character, and stands for as much. -/
theorem Part.standalone_of_takes (hp : q.Permits p) (h : p.takes c = true) :
    ∃ w w', Standalone p.piece w ∧ Standalone (p.taking c) w' ∧ w.length = w'.length := by
  cases p with
  | raw => cases h
  | escape e =>
    obtain ⟨hcode, -, htaking⟩ := Escape.code_lt_of_takes hp h
    exact ⟨_, _, standalone_unit hcode, standalone_unit htaking, rfl⟩
  | continuation l => exact ⟨_, _, standalone_continuation, standalone_continuation, rfl⟩

theorem Part.half_of_takes (hp : q.Permits p) (h : p.takes c = true) :
    (p.taking c).half = none ∧ ¬ (p.taking c).IsLow ∧ ¬ p.piece.IsLow := by
  cases p with
  | raw => cases h
  | escape e =>
    obtain ⟨hcode, -, htaking⟩ := Escape.code_lt_of_takes hp h
    have hcode := (not_half_of_lt hcode).2
    obtain ⟨hhigh, hlow⟩ := not_half_of_lt htaking
    refine ⟨?_, fun h => ?_, fun h => ?_⟩
    · show (if isHighHalf (e.taking c) then some _ else none) = none
      rw [hhigh]
      rfl
    · exact Bool.false_ne_true (hlow.symm.trans h)
    · exact Bool.false_ne_true (hcode.symm.trans h)
  | continuation l => exact ⟨rfl, id, id⟩

/-- The last piece leaves behind what the last part does. -/
theorem exists_last_piece (hpermits : ∀ p ∈ ps ++ [a], q.Permits p) :
    ∃ xs x, heardPieces (ps ++ [a]) = xs ++ [x] ∧ x ≠ .raw [] ∧ x.half = a.piece.half := by
  by_cases hlast : ∃ p ∈ ps.getLast?, p.Takes a
  · obtain ⟨p, hp, hread⟩ := hlast
    obtain ⟨c, rfl, htakes⟩ := Part.exists_of_takes hread
    obtain ⟨ps', rfl⟩ := List.getLast?_eq_some_iff.mp hp
    have hpermits : q.Permits p := hpermits p (by simp)
    have happend : heardPieces (ps' ++ [p, .raw c]) = heardPieces ps' ++ [p.taking c] := by
      rw [heardPieces_append, heardPieces, if_pos htakes]
      · rfl
      · rintro a - b hb
        obtain rfl : p = b := Option.some.inj hb
        exact Part.not_takes_of_takes htakes a
    refine ⟨heardPieces ps', p.taking c, ?_, ?_, (Part.half_of_takes hpermits htakes).1⟩
    · rw [List.append_assoc]
      exact happend
    · cases p with
      | raw => cases htakes
      | escape => nofun
      | continuation => nofun
  · refine ⟨heardPieces ps, a.piece, ?_, a.piece_ne, rfl⟩
    rw [heardPieces_append, heardPieces_singleton]
    intro p hp b hb
    obtain rfl : a = b := Option.some.inj hb
    exact fun h => hlast ⟨p, hp, h⟩

/-- The first piece is a low half if the first part is one. -/
theorem exists_first_piece (hpermits : q.Permits b) (ps : List Part) :
    ∃ y ys, heardPieces (b :: ps) = y :: ys ∧ y ≠ .raw [] ∧ (y.IsLow ↔ b.piece.IsLow) := by
  by_cases htakes : ∃ c ps', ps = .raw c :: ps' ∧ b.takes c = true
  · obtain ⟨c, ps', rfl, htakes⟩ := htakes
    obtain ⟨-, hlow, hlow'⟩ := Part.half_of_takes hpermits htakes
    refine ⟨b.taking c, heardPieces ps', ?_, ?_, iff_of_false hlow hlow'⟩
    · rw [heardPieces, if_pos htakes]
    · cases b with
      | raw => cases htakes
      | escape => nofun
      | continuation => nofun
  · refine ⟨b.piece, heardPieces ps, heardPieces_cons ?_, b.piece_ne, Iff.rfl⟩
    intro c ps' heq
    rw [← Bool.not_eq_true]
    exact fun h => htakes ⟨c, ps', heq, h⟩

theorem Part.joins_iff : a.Joins b ↔ a.piece.half.isSome = true ∧ b.piece.IsLow := by
  have hhalf (code : Nat) : (Piece.unit code).half.isSome = true ↔ isHighHalf code = true := by
    rw [Piece.half]
    cases isHighHalf code <;> simp
  cases a with
  | raw => exact iff_of_false id fun h => Bool.false_ne_true h.1
  | continuation => exact iff_of_false id fun h => Bool.false_ne_true h.1
  | escape e =>
    cases b with
    | raw => exact iff_of_false id fun h => h.2
    | continuation => exact iff_of_false id fun h => h.2
    | escape e' => exact and_congr (hhalf _).symm Iff.rfl

/-- Two texts can be read apart unless the halves of a character meet. -/
theorem heardChars_append_eq_iff (hpermits : ∀ p ∈ before ++ after, q.Permits p)
    (h : ∀ a ∈ before.getLast?, ∀ b ∈ after.head?, ¬ a.Takes b) :
    heardChars (before ++ after) = heardChars before ++ heardChars after ↔
      ∀ a ∈ before.getLast?, ∀ b ∈ after.head?, ¬ a.Joins b := by
  unfold heardChars
  rw [heardPieces_append h]
  rcases List.eq_nil_or_concat' before with rfl | ⟨before, a, rfl⟩
  · refine iff_of_true rfl fun a ha => ?_
    cases ha
  · cases after with
    | nil =>
      refine iff_of_true ?_ fun _ _ b hb => ?_
      · rw [heardPieces, List.append_nil]
        exact (List.append_nil _).symm
      · cases hb
    | cons b after =>
      rw [List.forall_mem_append] at hpermits
      obtain ⟨xs, x, hx, hne, hhalf⟩ := exists_last_piece hpermits.1
      obtain ⟨y, ys, hy, hne', hlow⟩ :=
        exists_first_piece (List.forall_mem_cons.mp hpermits.2).1 after
      rw [hx, hy, List.append_assoc, List.singleton_append, cookFrom_append_eq_iff hne hne', hhalf, hlow,
        ← Part.joins_iff]
      simp

/-- What takes the next character keeps it from being read. -/
theorem heardChars_append_ne (hpermits : ∀ p ∈ before ++ after, q.Permits p)
    (h : ∃ a ∈ before.getLast?, ∃ b ∈ after.head?, a.Takes b) :
    heardChars (before ++ after) ≠ heardChars before ++ heardChars after := by
  obtain ⟨a, ha, b, hb, hread⟩ := h
  obtain ⟨c, rfl, htakes⟩ := Part.exists_of_takes hread
  obtain ⟨before, rfl⟩ := List.getLast?_eq_some_iff.mp ha
  obtain ⟨after, rfl⟩ := List.head?_eq_some_iff.mp hb
  obtain ⟨w, w', hw, hw', hlength⟩ := Part.standalone_of_takes (hpermits a (by simp)) htakes
  have hapart (ps : List Part) : heardPieces (before ++ a :: ps) =
      heardPieces before ++ heardPieces (a :: ps) := by
    apply heardPieces_append
    rintro x - y hy
    obtain rfl : a = y := Option.some.inj hy
    exact Part.not_takes_of_takes htakes x
  have hwhole : heardChars (before ++ [a] ++ .raw c :: after) =
      heardChars before ++ (w' ++ heardChars after) := by
    unfold heardChars
    rw [List.append_assoc, List.singleton_append, hapart, heardPieces, if_pos htakes,
      cookFrom_standalone hw']
  have hbefore : heardChars (before ++ [a]) = heardChars before ++ w := by
    unfold heardChars
    rw [hapart, heardPieces_singleton, cookFrom_standalone hw, cookFrom]
    exact congrArg _ (List.append_nil w)
  have hafter : heardChars (.raw c :: after) = c :: heardChars after := by
    unfold heardChars
    rw [heardPieces_cons fun _ _ _ => rfl]
    rfl
  intro heq
  have hsame := congrArg List.length heq
  rw [hwhole, hbefore, hafter] at hsame
  simp only [List.length_append, List.length_cons] at hsame
  omega

/-- A continuation lets what is on its two sides be read apart. -/
theorem heardChars_continuation {l : LineEnd} (hl : l ≠ .lone) :
    heardChars (before ++ .continuation l :: after) = heardChars before ++ heardChars after := by
  have htakes (c : Char) : (Part.continuation l).takes c = false := by
    cases l with
    | lone => exact absurd rfl hl
    | _ => rfl
  unfold heardChars
  rw [heardPieces_append (fun a _ b hb => ?_), heardPieces_cons fun c _ _ => htakes c]
  · exact cookFrom_standalone standalone_continuation _ _ _
  · obtain rfl := Option.some.inj hb
    exact id

end Meetings

/-! ### What a continuation changes -/

section Invisible

variable {before after ps : List Part} {l : LineEnd}

theorem quotedAs_heardChars (h : Composed q ps) : QuotedAs q ps (String.ofList (heardChars ps)) where
  anywhere d rest fuel hfuel hd := by
    obtain ⟨a, b, ns, hns, hleads⟩ := leads_quotation hfuel h hd
    refine ⟨_, ⟨?_, hasFault_of_leaves hns.leaves⟩, hleads⟩
    rw [stringOf_of_leaves hns.leaves, hns.value]
    rfl
  alone := by
    refine parseLiteral_of_read (k := ps.length + 1) ?_ fun d rest fuel hfuel hd => ?_
    · rw [List.length_append, List.length_singleton]
      exact Nat.succ_le_succ (length_le_flatMap_partChars ps)
    · obtain ⟨a, b, ns, hns, hleads⟩ := leads_quotation hfuel h hd
      exact ⟨a, b, ns, ⟨hns.leaves, hns.value⟩, hleads⟩

theorem Quote.precedes_continuation (q : Quote) (p : Part) : q.Precedes p (.continuation l) := by
  cases p with
  | raw => exact trivial
  | escape => exact trivial
  | continuation l' => cases l' <;> exact trivial

theorem Quote.continuation_precedes (hl : l ≠ .lone) (p : Part) : q.Precedes (.continuation l) p := by
  cases l with
  | lone => exact absurd rfl hl
  | _ => cases p <;> exact trivial

/-- A continuation may stand anywhere. -/
theorem Composed.continued (hl : l ≠ .lone) (h : Composed q (before ++ after)) :
    Composed q (before ++ .continuation l :: after) where
  permits := by
    have hpermits := List.forall_mem_append.mp h.permits
    exact List.forall_mem_append.mpr ⟨hpermits.1, List.forall_mem_cons.mpr ⟨trivial, hpermits.2⟩⟩
  precedes := by
    refine h.precedes.left_of_append.append ?_ ?_
    · exact List.isChain_cons.mpr
        ⟨fun p _ => Quote.continuation_precedes hl p, h.precedes.right_of_append⟩
    · rintro p - p' hp'
      obtain rfl := Option.some.inj hp'
      exact q.precedes_continuation p

theorem heardChars_continued_iff (hl : l ≠ .lone) (h : Composed q (before ++ after)) :
    heardChars (before ++ .continuation l :: after) = heardChars (before ++ after) ↔
      ∀ a ∈ before.getLast?, ∀ b ∈ after.head?, ¬ a.Takes b ∧ ¬ a.Joins b := by
  rw [heardChars_continuation hl, eq_comm]
  by_cases htakes : ∀ a ∈ before.getLast?, ∀ b ∈ after.head?, ¬ a.Takes b
  · rw [heardChars_append_eq_iff h.permits htakes]
    constructor
    · intro hjoins a ha b hb
      exact ⟨htakes a ha b hb, hjoins a ha b hb⟩
    · intro hboth a ha b hb
      exact (hboth a ha b hb).2
  · refine iff_of_false (heardChars_append_ne h.permits ?_) fun hboth => ?_
    · simpa only [not_forall, not_not, exists_prop] using htakes
    · exact htakes fun a ha b hb => (hboth a ha b hb).1

/-- A continuation between two parts of a string does not change its value, unless the part before it
takes the character after it or the two are the halves of one character. -/
theorem continuation_quotedAs_iff (hl : l ≠ .lone) (h : Composed q (before ++ after)) :
    ∃ s s', QuotedAs q (before ++ after) s ∧ QuotedAs q (before ++ .continuation l :: after) s' ∧
      (s' = s ↔ ∀ a ∈ before.getLast?, ∀ b ∈ after.head?, ¬ a.Takes b ∧ ¬ a.Joins b) := by
  refine ⟨_, _, quotedAs_heardChars h, quotedAs_heardChars (h.continued hl), ?_⟩
  rw [← heardChars_continued_iff hl h]
  exact ⟨fun heq => String.ofList_injective heq, congrArg _⟩

/-- A character of two halves, with a continuation before it. -/
def halved : List Part :=
  [.raw 'a', .continuation .separator, .escape (.unit 'D' '8' '3' 'D'), .escape (.point ['d', 'e', '0', '0'])]

/-- A continuation behind a character of two halves and before an octal escape that would take one
more digit. -/
theorem continuation_quotedAs_iff_halves :
    Composed .single (halved ++ [.escape (.octal ['4', '0']), .raw '0']) ∧ ∃ s,
      QuotedAs .single (halved ++ [.escape (.octal ['4', '0']), .raw '0']) s ∧
      QuotedAs .single (halved ++ .continuation .pair :: [.escape (.octal ['4', '0']), .raw '0']) s := by
  have hcomposed : Composed .single (halved ++ [.escape (.octal ['4', '0']), .raw '0']) := by decide
  obtain ⟨s, s', hs, hs', hiff⟩ := continuation_quotedAs_iff (l := .pair) nofun hcomposed
  obtain rfl : s' = s := by
    refine hiff.mpr ?_
    rintro a ⟨⟩ b ⟨⟩
    refine ⟨id, fun hjoins => ?_⟩
    exact absurd hjoins.1 (by decide)
  exact ⟨hcomposed, s', hs, hs'⟩

/-- The two halves of a character are not joined over a continuation. -/
theorem continuation_parts_halves :
    parseLiteral "'\\uD83D\\uDE00'" = .ok (.string "😀") ∧
      parseLiteral "'\\uD83D\\\n\\uDE00'" = .ok (.string "\uFFFD\uFFFD") := by
  have hapart : Composed .single ([.escape (.unit 'D' '8' '3' 'D')] ++
      [.escape (.unit 'D' 'E' '0' '0')]) := by decide
  constructor
  · exact (quotedAs_heardChars hapart).alone
  · exact (quotedAs_heardChars (hapart.continued (l := .feed) nofun)).alone

end Invisible

end Workyard.Options
