import Workyard.Proofs.Json.Spelling
import Workyard.Proofs.Options.Forms
import Workyard.Proofs.Options.Quoted

/-!
# The tokens of a literal

A literal is written with tokens between which white space and comments may stand. Two tokens may stand
side by side unless the second one would be taken for a part of the first.
-/

namespace Workyard.Options

set_option autoImplicit false

open Script Script.Node Script.Draft

/-- A token of a literal. -/
inductive Token where
  | sign (c : Char)
  | word (cs : List Char)
  | number (cs : List Char)
  | quoted (q : Quote) (cs : List Char)
  deriving DecidableEq

namespace Token

def chars : Token → List Char
  | sign c => [c]
  | word cs | number cs | quoted _ cs => cs

inductive Valid : Token → Prop
  | sign {c} (hc : c ∈ [',', ':', '+', '-', '[', ']', '\x7b', '\x7d']) : Valid (.sign c)
  | word {cs} (hne : cs ≠ []) (h : Lexeme.word cs = cs.length) : Valid (.word cs)
  | number {cs} (hne : cs ≠ []) (h : Lexeme.number cs = cs.length) : Valid (.number cs)
  | quoted {q cs s} (h : Quotation q cs s) : Valid (.quoted q cs)

/-- Whether what stands behind a token is no part of it. -/
def Apart : Token → List Char → Prop
  | sign c, cs => c = '+' ∨ c = '-' → cs.head? ≠ some c
  | word _, cs | number _, cs => Loose cs
  | quoted _ _, _ => True

/-- Whether comments in the manner of HTML may come before a token: only the colon has them there. -/
def admits : Token → Bool
  | sign c => c == ':'
  | _ => false

/-- Whether comments in the manner of HTML may come after a token: only a colon and the signs of
numbers have them there. -/
def leaves : Token → Bool
  | sign c => c == ':' || c == '+' || c == '-'
  | _ => false

end Token

/-- A text is written with tokens, up to a place where it goes on. -/
inductive Tokenized (stop : List Char) : Bool → List Token → List Char → Prop
  | nil {html x} (hx : Spacing html x) : Tokenized stop html [] (x ++ stop)
  | cons {html t x ts cs} (hx : Spacing (html || t.admits) x) (ht : t.Valid) (hcs : t.Apart cs)
      (h : Tokenized stop t.leaves ts cs) : Tokenized stop html (t :: ts) (x ++ (t.chars ++ cs))

/-- The first of the tokens stands right ahead. -/
def Here (stop cs : List Char) : List Token → Prop
  | [] => False
  | t :: ts => ∃ rest, cs = t.chars ++ rest ∧ t.Valid ∧ t.Apart rest ∧ Tokenized stop t.leaves ts rest

variable {source : List Char} {stop x cs : List Char} {html : Bool} {t : Token} {ts us : List Token}
  {c : Char} {d : Draft source}

namespace Token

theorem Valid.firm (ht : t.Valid) (hcs : t.Apart cs) (html : Bool) : Firm html (t.chars ++ cs) := by
  have hsolid {cs : List Char} (h : Solid cs) : Firm html cs := ⟨h.space, h.comment, fun _ => h.htmlComment⟩
  cases ht with
  | @sign c hc =>
    refine hsolid ?_
    have hminus (hc : c = '-') : Lexeme.htmlComment (c :: cs) = 0 := by
      subst hc
      unfold Lexeme.htmlComment
      split
      · rename_i heq
        cases heq
      · rename_i heq
        have hhead := hcs (.inr rfl)
        rw [(List.cons.inj heq).2] at hhead
        exact absurd rfl hhead
      · rfl
    simp only [List.mem_cons, List.not_mem_nil, or_false] at hc
    rcases hc with rfl | rfl | rfl | rfl | rfl | rfl | rfl | rfl
    all_goals first | exact ⟨rfl, rfl, rfl⟩ | exact ⟨rfl, rfl, hminus rfl⟩
  | @word cs' hne h =>
    obtain ⟨c, t, rfl⟩ := List.exists_cons_of_ne_nil hne
    by_cases hslash : c = '\\'
    · subst hslash
      exact ⟨rfl, rfl, fun _ => rfl⟩
    · refine hsolid (begins_of_wordPart ?_ (t ++ cs)).solid
      by_contra hpart
      rw [Bool.not_eq_true] at hpart
      have hnone : Lexeme.word (c :: t) = 0 := by
        simp [Lexeme.word, Lexeme.isWordStart, hpart, unicodeEscape_of_ne hslash]
      rw [hnone] at h
      cases h
  | @number cs' hne h =>
    obtain ⟨c, t, rfl⟩ := List.exists_cons_of_ne_nil hne
    have hhead : c.isDigit = true ∨ c = '.' := by
      by_contra hhead
      rw [not_or, Bool.not_eq_true] at hhead
      rw [number_eq_zero hhead.1 hhead.2] at h
      cases h
    exact hsolid (solid_of_number hhead (t ++ cs))
  | @quoted q cs' s h =>
    obtain ⟨t, ps, rfl, -⟩ := h
    exact firm_quote q html _

end Token

/-! ### More white space -/

/-- What may come right behind any token. -/
structure Joins (cs : List Char) : Prop where
  loose : Loose cs
  sign : ∀ c ∈ cs.head?, c ≠ '+' ∧ c ≠ '-'

theorem joins_nil : Joins [] where
  loose _ hc := absurd hc (Option.not_mem_none _)
  sign _ hc := absurd hc (Option.not_mem_none _)

theorem Token.Apart.of_joins (t : Token) (h : Joins cs) : t.Apart cs := by
  cases t with
  | sign c =>
    intro hc hhead
    obtain ⟨hplus, hminus⟩ := h.sign c hhead
    exact hc.elim hplus hminus
  | word => exact h.loose
  | number => exact h.loose
  | quoted => trivial

theorem Token.Apart.congr {y : List Char} (h : t.Apart cs) (hy : y.head? = cs.head?) : t.Apart y := by
  cases t with
  | sign c => exact fun hc => hy ▸ h hc
  | word => exact fun c hc => h c (hy ▸ hc)
  | number => exact fun c hc => h c (hy ▸ hc)
  | quoted => trivial

theorem loose_cons (h : Lexeme.isSpace c = true ∨ c ∈ ['/', ',', ':', '<', '+', '-', '[', ']', '\x7b', '\x7d', ')'])
    (cs : List Char) : Loose (c :: cs) := by
  rintro x ⟨⟩
  rcases h with h | h
  · refine ⟨by simp [Lexeme.isWordPart, h], ?_, ?_⟩
    all_goals
      rintro rfl
      cases h
  · simp only [List.mem_cons, List.not_mem_nil, or_false] at h
    rcases h with rfl | rfl | rfl | rfl | rfl | rfl | rfl | rfl | rfl | rfl | rfl <;> decide

theorem loose_spacing (hx : Spacing html x) (hcs : Loose cs) : Loose (x ++ cs) := by
  cases hx with
  | nil => exact hcs
  | space hc => exact loose_cons (.inl hc) _
  | block => exact loose_cons (.inr (by decide)) _
  | line => exact loose_cons (.inr (by decide)) _
  | remark _ hmark =>
    rcases hmark with rfl | rfl <;> exact loose_cons (.inr (by decide)) _

theorem joins_spacing (hx : Spacing false x) (hcs : Joins cs) : Joins (x ++ cs) := by
  refine ⟨loose_spacing hx hcs.loose, ?_⟩
  cases hx with
  | nil => exact hcs.sign
  | space hc =>
    rintro y ⟨⟩
    constructor
    all_goals
      rintro rfl
      cases hc
  | block =>
    rintro y ⟨⟩
    decide
  | line =>
    rintro y ⟨⟩
    decide
  | remark hhtml => cases hhtml

/-- Whether comments in the manner of HTML may come after these tokens. -/
def leaving (html : Bool) : List Token → Bool
  | [] => html
  | t :: ts => leaving t.leaves ts

namespace Tokenized

theorem prepend (h : Tokenized stop html ts cs) (hx : Spacing html x) :
    Tokenized stop html ts (x ++ cs) := by
  cases h with
  | nil hy =>
    rw [← List.append_assoc]
    exact .nil (hx.append hy)
  | cons hy ht hcs h =>
    rw [← List.append_assoc]
    exact .cons ((hx.mono fun hhtml => by rw [hhtml]; rfl).append hy) ht hcs h

theorem append (h : Tokenized cs html ts x) (h' : Tokenized stop (leaving html ts) us cs) :
    Tokenized stop html (ts ++ us) x := by
  induction h with
  | nil hx => exact h'.prepend hx
  | cons hx ht hcs _ ih => exact .cons hx ht hcs (ih h')

/-- What comes after the last token may be something else. -/
theorem exists_front (h : Tokenized stop html ts cs) : ∃ a, cs = a ++ stop ∧
    ∀ stop', (Joins stop' ∨ stop'.head? = stop.head?) → Tokenized stop' html ts (a ++ stop') := by
  induction h with
  | nil hx => exact ⟨_, rfl, fun _ _ => .nil hx⟩
  | @cons html t x ts cs hx ht hcs _ ih =>
    obtain ⟨a, rfl, ha⟩ := ih
    refine ⟨x ++ (t.chars ++ a), by simp, fun stop' hstop => ?_⟩
    have happ : x ++ (t.chars ++ a) ++ stop' = x ++ (t.chars ++ (a ++ stop')) := by simp
    rw [happ]
    refine .cons hx ht ?_ (ha stop' hstop)
    cases a with
    | nil => exact hstop.elim (.of_joins t) hcs.congr
    | cons c a => exact hcs.congr rfl

/-- White space and comments may be put in between two tokens, before the first and after the last. -/
theorem insert {a b : List Char} (h : Tokenized b html ts (a ++ b))
    (h' : Tokenized stop (leaving html ts) us b) (hx : Spacing false x) :
    Tokenized stop html (ts ++ us) (a ++ (x ++ b)) := by
  obtain ⟨a', ha, hfront⟩ := h.exists_front
  obtain rfl := List.append_cancel_right ha
  refine (hfront (x ++ b) ?_).append (h'.prepend (hx.mono fun hfalse => absurd hfalse Bool.false_ne_true))
  cases x with
  | nil => exact .inr rfl
  | cons c x =>
    have hjoins := joins_spacing hx joins_nil
    rw [List.append_nil] at hjoins
    exact .inl ⟨fun y hy => hjoins.loose y hy, fun y hy => hjoins.sign y hy⟩

/-! ### Reading on to the next token -/

theorem leads_space (h : Tokenized stop html (t :: ts) d.rest) : ∃ ns,
    (∀ n ∈ ns, Passed (html || t.admits) n) ∧ Leads d d.space ns d.space.rest ∧
      d.space.rest.length ≤ d.rest.length ∧ Here stop d.space.rest (t :: ts) := by
  generalize hd : d.rest = r at h
  cases h with
  | @cons _ _ x _ cs hx ht hcs h =>
    obtain ⟨ns, hns, hleads⟩ := hx.leads (fun _ => rfl) (ht.firm hcs true) hd
      (show x.length < d.rest.length + 1 by rw [hd, List.length_append]; omega)
    have hspace : d.space.rest = t.chars ++ cs := hleads.rest_eq
    refine ⟨ns, hns, hspace ▸ hleads, ?_, cs, hspace, ht, hcs, h⟩
    rw [hspace]
    exact (List.suffix_append x _).length_le

theorem leads_gap (h : Tokenized stop false (t :: ts) d.rest) (hadmits : t.admits = false) : ∃ ns,
    (∀ n ∈ ns, Passed false n) ∧ Leads d d.gap ns d.gap.rest ∧
      d.gap.rest.length ≤ d.rest.length ∧ Here stop d.gap.rest (t :: ts) := by
  generalize hd : d.rest = r at h
  cases h with
  | @cons _ _ x _ cs hx ht hcs h =>
    rw [hadmits] at hx
    obtain ⟨ns, hns, hleads⟩ := hx.leads id (ht.firm hcs false) hd
      (show x.length < d.rest.length + 1 by rw [hd, List.length_append]; omega)
    have hgap : d.gap.rest = t.chars ++ cs := hleads.rest_eq
    refine ⟨ns, hns, hgap ▸ hleads, ?_, cs, hgap, ht, hcs, h⟩
    rw [hgap]
    exact (List.suffix_append x _).length_le

theorem leads_stop (h : Tokenized stop false [] d.rest) (hstop : Firm false stop) : ∃ ns,
    (∀ n ∈ ns, Passed false n) ∧ Leads d d.gap ns stop := by
  generalize hd : d.rest = r at h
  cases h with
  | @nil _ x hx =>
    exact hx.leads id hstop hd
      (show x.length < d.rest.length + 1 by rw [hd, List.length_append]; omega)

end Tokenized

end Workyard.Options
