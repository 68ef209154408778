import Workyard.Proofs.Options.Tokens

/-!
# What tokens express

A value, or what is left of an array or of an object, as a run of tokens. White space and comments do
not occur here. A comma before the closing bracket of an array or an object makes no difference if
a value ends before it.
-/

namespace Workyard.Options

set_option autoImplicit false

open Json (Phrase)
open Script

/-- The value of a token on its own. -/
inductive Token.Means : Token → Json → Prop
  | trueWord : Means (.word "true".toList) (.bool true)
  | falseWord : Means (.word "false".toList) (.bool false)
  | nullWord : Means (.word "null".toList) .null
  | number {cs x} (h : number? false (String.ofList cs) = some x) : Means (.number cs) (.number x)
  | text {q cs s} (h : Quotation q cs s) : Means (.quoted q cs) (.string s)

/-- The name that a token gives to a member. -/
inductive Token.Names : Token → String → Prop
  | word {cs} : Names (.word cs) (String.ofList cs)
  | number {cs x} (h : number? false (String.ofList cs) = some x) : Names (.number cs) (numericKey x)
  | text {q cs s} (hq : q ≠ .backtick) (h : Quotation q cs s) : Names (.quoted q cs) s

/-- The tokens begin with the phrase, and others come after it. The items of an array are first when
an item is awaited, so that no comma may stand there; between the members of an object there may be
any number of commas. -/
inductive Expresses : Phrase → List Token → List Token → Prop
  | single {t v ts} (h : t.Means v) : Expresses (.value v) (t :: ts) ts
  | signed {c cs x ts} (hc : c ∈ ['+', '-']) (h : number? (c = '-') (String.ofList cs) = some x) :
      Expresses (.value (.number x)) (.sign c :: .number cs :: ts) ts
  | array {vs ts us} (h : Expresses (.items true vs) ts us) :
      Expresses (.value (.array vs)) (.sign '[' :: ts) us
  | object {es ms ts us} (h : Expresses (.members true es) ts us) (hms : Json.Members.Merged es ms) :
      Expresses (.value (.object ms)) (.sign '\x7b' :: ts) us
  | noItem {first ts} : Expresses (.items first []) (.sign ']' :: ts) ts
  | item {v vs ts us ws} (hvalue : Expresses (.value v) ts us)
      (hitems : Expresses (.items false vs) us ws) : Expresses (.items true (v :: vs)) ts ws
  | nextItem {vs ts us} (h : Expresses (.items true vs) ts us) :
      Expresses (.items false vs) (.sign ',' :: ts) us
  | noMember {first ts} : Expresses (.members first []) (.sign '\x7d' :: ts) ts
  | member {t k v es ts us ws} (hkey : t.Names k) (hvalue : Expresses (.value v) ts us)
      (hmembers : Expresses (.members false es) us ws) :
      Expresses (.members true ((k, v) :: es)) (t :: .sign ':' :: ts) ws
  | nextMember {first es ts us} (h : Expresses (.members true es) ts us) :
      Expresses (.members first es) (.sign ',' :: ts) us

/-! ### Where a value ends -/

/-- A value may end before these tokens. -/
def Ending (ts : List Token) : Prop :=
  ∀ t ∈ ts.head?, t ∈ [.sign ',', .sign ']', .sign '\x7d']

theorem ending_nil : Ending [] :=
  fun _ ht => absurd ht (Option.not_mem_none _)

theorem ending_cons {t : Token} (ht : t ∈ [.sign ',', .sign ']', .sign '\x7d']) (ts : List Token) :
    Ending (t :: ts) := by
  rintro u ⟨⟩
  exact ht

theorem Expresses.ending_of_items {vs : List Json} {ts us : List Token}
    (h : Expresses (.items false vs) ts us) : Ending ts := by
  cases h with
  | noItem => exact ending_cons (by decide) _
  | nextItem => exact ending_cons (by decide) _

theorem Expresses.ending_of_members {es : List (String × Json)} {ts us : List Token}
    (h : Expresses (.members false es) ts us) : Ending ts := by
  cases h with
  | noMember => exact ending_cons (by decide) _
  | nextMember => exact ending_cons (by decide) _

section Reading

variable {source stop : List Char} {d : Draft source} {ts : List Token}

/-- Where a value may end before the tokens, no operator stands ahead. -/
theorem Tokenized.ends (h : Tokenized stop false ts d.rest) (hts : Ending ts) (hstop : Ends stop) :
    Ended d := by
  unfold Ended
  cases ts with
  | nil =>
    have hfirm : Firm false stop :=
      ⟨hstop.solid.space, hstop.solid.comment, fun h => absurd h Bool.false_ne_true⟩
    obtain ⟨ns, -, hgap⟩ := h.leads_stop hfirm
    rw [hgap.rest_eq]
    exact hstop
  | cons t ts =>
    have ht := hts t rfl
    simp only [List.mem_cons, List.not_mem_nil, or_false] at ht
    rcases ht with rfl | rfl | rfl
    all_goals
      obtain ⟨ns, -, -, -, cs, hgap, -⟩ := h.leads_gap rfl
      rw [hgap]
      constructor

end Reading

/-! ### Trailing commas -/

/-- Whether a value may end with the token. -/
def Token.ends : Token → Bool
  | .sign c => c == ']' || c == '\x7d'
  | _ => true

/-- The same tokens, but for commas that stand between the end of a value and a closing bracket. The
flag tells whether a value ends right before. -/
inductive Trailing : Bool → List Token → List Token → Prop
  | nil {ended} : Trailing ended [] []
  | cons {ended t ts us} (h : Trailing t.ends ts us) : Trailing ended (t :: ts) (t :: us)
  | add {c ts us} (hc : c ∈ [']', '\x7d']) (h : Trailing true ts us) :
      Trailing true (.sign c :: ts) (.sign ',' :: .sign c :: us)
  | remove {c ts us} (hc : c ∈ [']', '\x7d']) (h : Trailing true ts us) :
      Trailing true (.sign ',' :: .sign c :: ts) (.sign c :: us)

section Commas

variable {ended : Bool} {t : Token} {ts us : List Token} {c : Char}

namespace Trailing

theorem uncons (h : Trailing ended (t :: ts) us) :
    (∃ us', us = t :: us' ∧ Trailing t.ends ts us') ∨
    ended = true ∧ (
      (∃ c us', c ∈ [']', '\x7d'] ∧ t = .sign c ∧ us = .sign ',' :: .sign c :: us' ∧
        Trailing true ts us') ∨
      ∃ c ts' us', c ∈ [']', '\x7d'] ∧ t = .sign ',' ∧ ts = .sign c :: ts' ∧ us = .sign c :: us' ∧
        Trailing true ts' us') := by
  cases h with
  | cons h => exact .inl ⟨_, rfl, h⟩
  | add hc h => exact .inr ⟨rfl, .inl ⟨_, _, hc, rfl, rfl, h⟩⟩
  | remove hc h => exact .inr ⟨rfl, .inr ⟨_, _, _, hc, rfl, rfl, rfl, h⟩⟩

/-- Where no value ends, the next token is the same. -/
theorem uncons_of_not_ended (h : Trailing false (t :: ts) us) :
    ∃ us', us = t :: us' ∧ Trailing t.ends ts us' := by
  rcases h.uncons with h | ⟨hended, -⟩
  · exact h
  · cases hended

/-- What is neither a comma nor a closing bracket is the same. -/
theorem uncons_of_other (h : Trailing ended (t :: ts) us)
    (ht : t ∉ [.sign ',', .sign ']', .sign '\x7d']) : ∃ us', us = t :: us' ∧ Trailing t.ends ts us' := by
  rcases h.uncons with h | ⟨-, ⟨c, us', hc, rfl, -⟩ | ⟨c, ts', us', -, rfl, -⟩⟩
  · exact h
  · simp only [List.mem_cons, List.not_mem_nil, or_false] at hc
    rcases hc with rfl | rfl <;> exact absurd (by decide) ht
  · exact absurd (by decide) ht

/-- Before a closing bracket a comma may be added. -/
theorem uncons_of_closing (h : Trailing ended (.sign c :: ts) us) (hc : c ∈ [']', '\x7d']) :
    ∃ us', (us = .sign c :: us' ∨ ended = true ∧ us = .sign ',' :: .sign c :: us') ∧
      Trailing true ts us' := by
  have hends : (Token.sign c).ends = true := by
    simp only [List.mem_cons, List.not_mem_nil, or_false] at hc
    rcases hc with rfl | rfl <;> rfl
  rcases h.uncons with ⟨us', rfl, hus⟩ | ⟨hended, ⟨x, us', -, hx, rfl, hus⟩ | ⟨x, ts', us', -, hx, -⟩⟩
  · exact ⟨us', .inl rfl, hends ▸ hus⟩
  · cases hx
    exact ⟨us', .inr ⟨hended, rfl⟩, hus⟩
  · cases hx
    exact absurd hc (by decide)

/-- A comma is the same, unless it stands before a closing bracket and is removed. -/
theorem uncons_of_comma (h : Trailing ended (.sign ',' :: ts) us) :
    (∃ us', us = .sign ',' :: us' ∧ Trailing false ts us') ∨
      ended = true ∧ ∃ c ts' us', c ∈ [']', '\x7d'] ∧ ts = .sign c :: ts' ∧ us = .sign c :: us' ∧
        Trailing true ts' us' := by
  rcases h.uncons with h | ⟨hended, ⟨c, us', hc, hx, -⟩ | ⟨c, ts', us', hc, -, h⟩⟩
  · exact .inl h
  · cases hx
    exact absurd hc (by decide)
  · exact .inr ⟨hended, c, ts', us', hc, h⟩

theorem symm (h : Trailing ended ts us) : Trailing ended us ts := by
  induction h with
  | nil => exact .nil
  | cons _ ih => exact .cons ih
  | add hc _ ih => exact .remove hc ih
  | remove hc _ ih => exact .add hc ih

end Trailing

/-- Whether a value ends right before a phrase. -/
def afterValue : Phrase → Bool
  | .value _ => false
  | .items first _ | .members first _ => !first

theorem Token.Means.ends {v : Json} (h : t.Means v) : t.ends = true := by
  cases h <;> rfl

/-- No value begins with a closing bracket. -/
theorem Expresses.not_closing {v : Json} (h : Expresses (.value v) (.sign c :: ts) us) :
    c ∉ [']', '\x7d'] := by
  cases h with
  | single h => cases h
  | signed hc =>
    simp only [List.mem_cons, List.not_mem_nil, or_false] at hc
    rcases hc with rfl | rfl <;> decide
  | array => decide
  | object => decide

/-- With a trailing comma more or less the tokens express the same. -/
theorem Expresses.trailing {p : Phrase} {ts' : List Token} (h : Expresses p ts us)
    (hts : Trailing (afterValue p) ts ts') : ∃ us', Expresses p ts' us' ∧ Trailing true us us' := by
  induction h generalizing ts' with
  | single h =>
    obtain ⟨us', rfl, hus⟩ := hts.uncons_of_not_ended
    exact ⟨us', .single h, h.ends ▸ hus⟩
  | signed hc h =>
    obtain ⟨us', rfl, hus⟩ := hts.uncons_of_not_ended
    obtain ⟨ws', rfl, hws⟩ := hus.uncons_of_other (by simp)
    exact ⟨ws', .signed hc h, hws⟩
  | array h ih =>
    obtain ⟨us', rfl, hus⟩ := hts.uncons_of_not_ended
    obtain ⟨us', h', hus⟩ := ih hus
    exact ⟨us', .array h', hus⟩
  | object h hms ih =>
    obtain ⟨us', rfl, hus⟩ := hts.uncons_of_not_ended
    obtain ⟨us', h', hus⟩ := ih hus
    exact ⟨us', .object h' hms, hus⟩
  | noItem =>
    obtain ⟨us', rfl | ⟨hended, rfl⟩, hus⟩ := hts.uncons_of_closing (by decide)
    · exact ⟨us', .noItem, hus⟩
    · rw [afterValue, Bool.not_eq_true'] at hended
      subst hended
      exact ⟨us', .nextItem .noItem, hus⟩
  | item hvalue hitems ihValue ihItems =>
    obtain ⟨us', hvalue', hus⟩ := ihValue hts
    obtain ⟨ws', hitems', hws⟩ := ihItems hus
    exact ⟨ws', .item hvalue' hitems', hws⟩
  | nextItem h ih =>
    rcases hts.uncons_of_comma with ⟨us', rfl, hus⟩ | ⟨-, c, ts', us', hc, rfl, rfl, hus⟩
    · obtain ⟨us', h', hus⟩ := ih hus
      exact ⟨us', .nextItem h', hus⟩
    · cases h with
      | noItem => exact ⟨us', .noItem, hus⟩
      | item hvalue => exact absurd hc hvalue.not_closing
  | noMember =>
    obtain ⟨us', rfl | ⟨-, rfl⟩, hus⟩ := hts.uncons_of_closing (by decide)
    · exact ⟨us', .noMember, hus⟩
    · exact ⟨us', .nextMember .noMember, hus⟩
  | member hkey hvalue hmembers ihValue ihMembers =>
    obtain ⟨us', rfl, hus⟩ := hts.uncons_of_not_ended
    obtain ⟨xs', rfl, hxs⟩ := hus.uncons_of_other (by decide)
    obtain ⟨us', hvalue', hus⟩ := ihValue hxs
    obtain ⟨ws', hmembers', hws⟩ := ihMembers hus
    exact ⟨ws', .member hkey hvalue' hmembers', hws⟩
  | nextMember h ih =>
    rcases hts.uncons_of_comma with ⟨us', rfl, hus⟩ | ⟨-, c, ts', us', hc, rfl, rfl, hus⟩
    · obtain ⟨us', h', hus⟩ := ih hus
      exact ⟨us', .nextMember h', hus⟩
    · cases h with
      | noMember => exact ⟨us', .noMember, hus⟩
      | member hkey => cases hkey
      | nextMember => exact absurd hc (by decide)

end Commas

end Workyard.Options
