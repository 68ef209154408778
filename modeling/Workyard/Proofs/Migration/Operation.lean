import Workyard.Migration.Apply
import Workyard.Proofs.Disk.Directories

/-!
# The operations of a migration

Applying a plan comes to a list of operations on files, any of which may fail, for what the disk
is like or for something from outside. A run passes the operations up to the first that fails.
-/

namespace Workyard.Migration

set_option autoImplicit false

open Disk

inductive Operation where
  | read (path : FilePath)
  | write (path : FilePath) (text : String)
  | move (source target : FilePath)
  deriving DecidableEq, Repr

namespace Operation

/-- What an operation does to a disk if nothing befalls it. That a file is not there to be read
is no failure. -/
def perform : Operation → Disk → Except Fault Disk
  | read p, d =>
    match d.readText p with
    | .ok _ | .error .notFound => .ok d
    | .error f => .error f
  | write p text, d => d.writeFile p (.text text)
  | move p q, d => d.rename p q

def isRead : Operation → Bool
  | read _ => true
  | _ => false

def Succeeds (o : Operation) (s s' : Session) : Prop :=
  s.next.1 = none ∧ o.perform s.disk = .ok s'.disk ∧ s'.ahead = s.next.2.ahead

/-- An operation fails if anything befalls it, and else if the disk is not fit for it. Nothing
from outside makes a file seem not to be there. -/
def Fails (o : Operation) (s : Session) : Prop :=
  match s.next.1 with
  | some m => o.isRead = true → m.fault ≠ .notFound
  | none => ∃ f, o.perform s.disk = .error f

end Operation

/-- The operations succeed one after the other. -/
inductive Passes : List Operation → Session → Session → Prop where
  | nil (s : Session) : Passes [] s s
  | cons {o : Operation} {os : List Operation} {s s₁ s₂ : Session} :
    o.Succeeds s s₁ → Passes os s₁ s₂ → Passes (o :: os) s s₂

/-- As many operations succeed, and the next one fails. -/
inductive FailsAt : List Operation → Nat → Session → Prop where
  | here {o : Operation} {os : List Operation} {s : Session} :
    o.Fails s → FailsAt (o :: os) 0 s
  | later {o : Operation} {os : List Operation} {n : Nat} {s s₁ : Session} :
    o.Succeeds s s₁ → FailsAt os n s₁ → FailsAt (o :: os) (n + 1) s

/-- Two sessions from which work goes on in the same way. -/
def Alike (s t : Session) : Prop :=
  s.disk = t.disk ∧ s.ahead = t.ahead

theorem Alike.refl (s : Session) : Alike s s := ⟨rfl, rfl⟩

theorem Alike.symm {s t : Session} (h : Alike s t) : Alike t s := ⟨h.1.symm, h.2.symm⟩

theorem Alike.trans {s t u : Session} (h : Alike s t) (h' : Alike t u) : Alike s u :=
  ⟨h.1.trans h'.1, h.2.trans h'.2⟩

theorem Alike.next {s t : Session} (h : Alike s t) :
    s.next.1 = t.next.1 ∧ Alike s.next.2 t.next.2 := by
  obtain ⟨d, ahead, lines⟩ := s
  obtain ⟨d', ahead', lines'⟩ := t
  obtain ⟨rfl, rfl⟩ := h
  cases ahead <;> exact ⟨rfl, rfl, rfl⟩

variable {o : Operation} {os os' : List Operation} {s s' s₁ t : Session} {n : Nat}

theorem Operation.succeeds_of_perform {d : Disk} (hnext : s.next.1 = none)
    (h : o.perform s.disk = .ok d) : o.Succeeds s { s.next.2 with disk := d } :=
  ⟨hnext, h, rfl⟩

theorem Operation.Succeeds.alike (h : o.Succeeds s s₁) (ht : Alike t s) : o.Succeeds t s₁ :=
  ⟨ht.next.1.trans h.1, ht.1 ▸ h.2.1, h.2.2.trans ht.next.2.2.symm⟩

theorem Operation.Fails.alike (h : o.Fails s) (ht : Alike t s) : o.Fails t := by
  unfold Fails at h ⊢
  rw [ht.next.1, ht.1]
  exact h

theorem Passes.alike (h : Passes os s s₁) (ht : Alike t s) : ∃ t₁, Passes os t t₁ ∧ Alike t₁ s₁ := by
  cases h with
  | nil => exact ⟨t, .nil t, ht⟩
  | cons ho hos => exact ⟨s₁, .cons (ho.alike ht) hos, .refl s₁⟩

theorem Passes.of_append (h : Passes (os ++ os') s s₁) :
    ∃ t, Passes os s t ∧ Passes os' t s₁ := by
  induction os generalizing s with
  | nil => exact ⟨s, .nil s, h⟩
  | cons o os ih =>
    obtain _ | ⟨ho, hos⟩ := h
    obtain ⟨t, ht, ht'⟩ := ih hos
    exact ⟨t, .cons ho ht, ht'⟩

theorem Passes.append (h : Passes os s s₁) (h' : Passes os' s₁ s') : Passes (os ++ os') s s' := by
  induction h with
  | nil => exact h'
  | cons ho _ ih => exact .cons ho (ih h')

theorem FailsAt.alike (h : FailsAt os n s) (ht : Alike t s) : FailsAt os n t := by
  cases h with
  | here ho => exact .here (ho.alike ht)
  | later ho hos => exact .later (ho.alike ht) hos

theorem FailsAt.lt_length (h : FailsAt os n s) : n < os.length := by
  induction h with
  | here _ => simp
  | later _ _ ih => simpa using ih

/-- The operation that fails is among the first ones, or these pass and it is among the others. -/
theorem FailsAt.of_append (h : FailsAt (os ++ os') n s) :
    FailsAt os n s ∨ ∃ s', Passes os s s' ∧ os.length ≤ n ∧ FailsAt os' (n - os.length) s' := by
  induction os generalizing n s with
  | nil => exact .inr ⟨s, .nil s, Nat.zero_le n, h⟩
  | cons o os ih =>
    cases h with
    | here ho => exact .inl (.here ho)
    | later ho hos =>
      rcases ih hos with hos | ⟨s', hp, hn, hos⟩
      · exact .inl (.later ho hos)
      · refine .inr ⟨s', .cons ho hp, by simpa using hn, ?_⟩
        simpa using hos

/-- The operations that stage a file. What moves aside is not read. -/
def Plan.stagingOf (p : Plan) (w : FileWrite) : List Operation :=
  (if p.movesAside w.path then [] else [.read w.path]) ++
    [.write (temporaryOf w.path) w.content]

def Plan.staging (p : Plan) : List Operation :=
  p.writes.flatMap p.stagingOf

/-- The moves of files, one after the other. -/
def moving (rs : List Rename) : List Operation :=
  rs.map fun r => .move r.source r.target

theorem moving_append (rs rs' : List Rename) : moving (rs ++ rs') = moving rs ++ moving rs' :=
  List.map_append

/-- A file goes from its temporary place to its own. -/
def FileWrite.placing (w : FileWrite) : Rename :=
  ⟨temporaryOf w.path, w.path⟩

/-- The operations that applying a plan comes to. -/
def Plan.operations (p : Plan) : List Operation :=
  p.staging ++ moving (p.renames ++ p.writes.map (·.placing))

end Workyard.Migration
