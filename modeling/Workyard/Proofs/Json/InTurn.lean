import Mathlib.Data.List.Forall2
import Workyard.Json.Record
import Workyard.Proofs.Json.Members
import Workyard.Proofs.Json.Tokens

/-!
# Members in turn

The members of an object as they stand in the text, where a key may come twice. Reading them and
setting them one after the other is reading the object. A record that is read with the members in
turn is the record of the members that were set, whatever its other fields.
-/

namespace Workyard.Json.Reader

set_option autoImplicit false

/-- The members of an object, each where it stands. -/
def membersInTurn : Nat → Nat → Bool → Reader (List (String × Json))
  | 0, _, _, _ => .error .truncated
  | fuel + 1, depth, first, cs => do
    let (more, cs) ← nextMember first cs
    if more then
      let (k, cs) ← string cs
      let (v, cs) ← value fuel depth (← colon cs)
      let (es, cs) ← membersInTurn fuel depth false cs
      .ok ((k, v) :: es, cs)
    else .ok ([], cs)

def objectInTurn (depth : Nat) : Reader (List (String × Json)) := fun cs =>
  match skipSpace cs with
  | '\x7b' :: cs =>
    match depth with
    | 0 => .error .malformed
    | depth + 1 => membersInTurn (2 * cs.length + 2) depth true cs
  | cs => .error (mismatch cs)

variable {σ τ α β : Type} {fields : List (Field σ)} {fields' : List (Field τ)} {g : σ → τ}

theorem map_bind {ε γ : Type} (x : Except ε α) (f : α → Except ε β) (h : β → γ) :
    (x >>= f).map h = x >>= fun a => (f a).map h := by
  cases x <;> rfl

theorem bind_map {ε γ : Type} (x : Except ε α) (h : α → β) (f : β → Except ε γ) :
    x.map h >>= f = x >>= fun a => f (h a) := by
  cases x <;> rfl

theorem members_eq_membersInTurn (fuel depth : Nat) (first : Bool) (ms : Members) (cs : List Char) :
    members fuel depth first ms cs =
      (membersInTurn fuel depth first cs).map fun r => (ms.setAll r.1, r.2) := by
  induction fuel generalizing first ms cs with
  | zero => rfl
  | succ fuel ih =>
    rw [members, membersInTurn, map_bind]
    refine bind_congr fun next => ?_
    obtain ⟨more, key⟩ := next
    cases more with
    | false => rfl
    | true =>
      simp only [if_true]
      rw [map_bind]
      refine bind_congr fun named => ?_
      rw [map_bind]
      refine bind_congr fun body => ?_
      rw [map_bind]
      refine bind_congr fun given => ?_
      rw [ih]
      cases membersInTurn fuel depth false given.2 <;> rfl

theorem objectMembers_eq_objectInTurn (depth : Nat) (cs : List Char) :
    objectMembers depth cs = (objectInTurn depth cs).map fun r => (Members.ofList r.1, r.2) := by
  unfold objectMembers objectInTurn
  by_cases hopen : ∃ inner, skipSpace cs = '\x7b' :: inner
  · obtain ⟨inner, hinner⟩ := hopen
    simp only [hinner]
    cases depth with
    | zero => rfl
    | succ depth => exact members_eq_membersInTurn _ depth true [] inner
  · have hnot (inner : List Char) : skipSpace cs ≠ '\x7b' :: inner := fun h => hopen ⟨inner, h⟩
    -- With `hnot`, both matches are their last case.
    simp only
    rfl

/-! ### Records of what was read -/

/-- Reading one record is reading another one and making this of it. -/
def Reads (g : σ → τ) (read : σ → Reader σ) (read' : τ → Reader τ) : Prop :=
  ∀ r cs, read' (g r) cs = (read r cs).map fun r => (g r.1, r.2)

/-- Fields of two records that are read alike. -/
structure Alike (g : σ → τ) (f : Field σ) (f' : Field τ) : Prop where
  name_eq : f'.name = f.name
  required_eq : f'.required = f.required
  reads : ∀ depth, Reads g (f.read depth) (f'.read depth)

theorem any_required_of_alike (h : List.Forall₂ (Alike g) fields fields') :
    fields'.any (·.required) = fields.any (·.required) := by
  induction h with
  | nil => rfl
  | cons hf _ ih => rw [List.any_cons, List.any_cons, hf.required_eq, ih]

theorem find?_of_alike (h : List.Forall₂ (Alike g) fields fields') (key : String) :
    (fields.find? (·.name = key) = none ∧ fields'.find? (·.name = key) = none) ∨
      ∃ f f', fields.find? (·.name = key) = some f ∧ fields'.find? (·.name = key) = some f' ∧
        Alike g f f' := by
  induction h with
  | nil => exact .inl ⟨rfl, rfl⟩
  | @cons f f' fs fs' hf _ ih =>
    by_cases hname : f.name = key
    · have hname' : f'.name = key := hf.name_eq.trans hname
      exact .inr ⟨f, f', List.find?_cons_of_pos (by simpa using hname),
        List.find?_cons_of_pos (by simpa using hname'), hf⟩
    · have hname' : f'.name ≠ key := fun heq => hname (hf.name_eq.symm.trans heq)
      rwa [List.find?_cons_of_neg (by simpa using hname),
        List.find?_cons_of_neg (by simpa using hname')]

theorem reads_fieldsInOrder (h : List.Forall₂ (Alike g) fields fields') (depth : Nat) (first : Bool) :
    Reads g (fieldsInOrder depth first fields) (fieldsInOrder depth first fields') := by
  induction h generalizing first with
  | nil =>
    intro r cs
    rw [fieldsInOrder, fieldsInOrder]
    cases closeArray cs <;> rfl
  | @cons f f' fs fs' hf hfs ih =>
    intro r cs
    rw [fieldsInOrder, fieldsInOrder, map_bind]
    refine bind_congr fun next => ?_
    obtain ⟨more, body⟩ := next
    cases more with
    | false =>
      have hrequired := any_required_of_alike (List.Forall₂.cons hf hfs)
      simp only [Bool.false_eq_true, if_false, hrequired]
      split <;> rfl
    | true =>
      simp only [if_true]
      rw [hf.reads, map_bind, bind_map]
      exact bind_congr fun given => ih false given.1 given.2

theorem reads_fieldsByName (h : List.Forall₂ (Alike g) fields fields') (depth fuel : Nat)
    (first : Bool) (seen : List String) :
    Reads g (fieldsByName fields depth fuel first seen)
      (fieldsByName fields' depth fuel first seen) := by
  induction fuel generalizing first seen with
  | zero =>
    intro r cs
    rfl
  | succ fuel ih =>
    intro r cs
    rw [fieldsByName, fieldsByName, map_bind]
    refine bind_congr fun next => ?_
    obtain ⟨more, key⟩ := next
    cases more with
    | false => rfl
    | true =>
      simp only [if_true]
      rw [map_bind]
      refine bind_congr fun named => ?_
      rcases find?_of_alike h named.1 with ⟨hnone, hnone'⟩ | ⟨f, f', hsome, hsome', hf⟩
      · simp only [hnone, hnone']
        rw [map_bind]
        refine bind_congr fun body => ?_
        rw [map_bind]
        exact bind_congr fun after => ih false seen r after
      · simp only [hsome, hsome']
        split
        · rfl
        · rw [map_bind]
          refine bind_congr fun body => ?_
          rw [hf.reads, map_bind, bind_map]
          exact bind_congr fun given => ih false (named.1 :: seen) given.1 given.2

/-- A record is read as another one whose fields are read alike. -/
theorem reads_record (h : List.Forall₂ (Alike g) fields fields') (depth : Nat) :
    Reads g (record fields depth) (record fields' depth) := by
  intro r cs
  unfold record
  split
  · rfl
  · rfl
  · exact reads_fieldsInOrder h _ true r _
  · exact reads_fieldsByName h _ _ true [] r _
  · rfl

theorem finish_of_reads {read : Reader α} {read' : Reader β} {f : α → β}
    (h : ∀ cs, read' cs = (read cs).map fun r => (f r.1, r.2)) (cs : List Char) :
    finish read' cs = (finish read cs).map f := by
  rw [finish, finish, h, map_bind, bind_map]
  refine bind_congr fun given => ?_
  obtain ⟨a, rest⟩ := given
  dsimp only
  split <;> rfl

end Workyard.Json.Reader
