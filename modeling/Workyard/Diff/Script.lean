/-!
# Edit scripts

A script of runs tells how one list becomes another: a run of elements is kept, deleted or
inserted. What it keeps and deletes is the old list, and what it keeps and inserts the new
one.
-/

namespace Workyard.Diff

set_option autoImplicit false

variable {α : Type}

inductive Action where
  | keep | delete | insert
  deriving DecidableEq, Repr

structure Run (α : Type) where
  action : Action
  items : List α
  deriving Repr

abbrev Script (α : Type) := List (Run α)

def Run.old (r : Run α) : List α :=
  if r.action = .insert then [] else r.items

def Run.new (r : Run α) : List α :=
  if r.action = .delete then [] else r.items

namespace Script

def old (s : Script α) : List α := s.flatMap Run.old

def new (s : Script α) : List α := s.flatMap Run.new

@[simp] theorem old_nil : old ([] : Script α) = [] := rfl

@[simp] theorem new_nil : new ([] : Script α) = [] := rfl

@[simp] theorem old_cons (r : Run α) (s : Script α) : old (r :: s) = r.old ++ old s := by
  simp [old]

@[simp] theorem new_cons (r : Run α) (s : Script α) : new (r :: s) = r.new ++ new s := by
  simp [new]

@[simp] theorem old_append (s t : Script α) : old (s ++ t) = old s ++ old t := by
  simp [old]

@[simp] theorem new_append (s t : Script α) : new (s ++ t) = new s ++ new t := by
  simp [new]

/-- A run, or nothing where it would be empty. -/
def single (action : Action) (items : List α) : Script α :=
  if items.isEmpty then [] else [⟨action, items⟩]

theorem old_single (action : Action) (items : List α) :
    old (single action items) = if action = .insert then [] else items := by
  cases items <;> cases action <;> simp [single, Run.old]

theorem new_single (action : Action) (items : List α) :
    new (single action items) = if action = .delete then [] else items := by
  cases items <;> cases action <;> simp [single, Run.new]

end Script

section Common

variable [DecidableEq α]

def commonLength : List α → List α → Nat
  | a :: as, b :: bs => if a = b then commonLength as bs + 1 else 0
  | _, _ => 0

def commonEnd (as bs : List α) : Nat :=
  commonLength as.reverse bs.reverse

theorem take_commonLength (as bs : List α) :
    as.take (commonLength as bs) = bs.take (commonLength as bs) := by
  induction as generalizing bs with
  | nil => cases bs <;> simp [commonLength]
  | cons a as ih =>
    cases bs with
    | nil => simp [commonLength]
    | cons b bs =>
      by_cases h : a = b
      · subst h
        simp [commonLength, ih]
      · simp [commonLength, h]

theorem commonLength_le (as bs : List α) : commonLength as bs ≤ as.length := by
  induction as generalizing bs with
  | nil => cases bs <;> simp [commonLength]
  | cons a as ih =>
    cases bs with
    | nil => simp [commonLength]
    | cons b bs =>
      by_cases h : a = b
      · simpa [commonLength, h] using ih bs
      · simp [commonLength, h]

end Common

end Workyard.Diff
