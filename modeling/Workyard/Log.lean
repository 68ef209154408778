/-!
# Logged results

A computation that may fail and says on its way what it does. The lines come in the order in
which they were said, up to a failure; the result does not depend on them.
-/

namespace Workyard

set_option autoImplicit false

inductive Log.Level where
  | debug | info | warn
  deriving DecidableEq, Repr

structure Log.Line where
  level : Log.Level
  text : String
  deriving DecidableEq, Repr

/-- A result or a failure, with the lines that were logged before. -/
structure Logged (ε α : Type) where
  lines : List Log.Line
  result : Except ε α

namespace Logged

variable {ε ε' α β : Type}

def say (level : Log.Level) (text : String) : Logged ε Unit :=
  ⟨[⟨level, text⟩], .ok ()⟩

def debug (text : String) : Logged ε Unit := say .debug text

def info (text : String) : Logged ε Unit := say .info text

def warn (text : String) : Logged ε Unit := say .warn text

/-- A result without a word. -/
def ofExcept (r : Except ε α) : Logged ε α := ⟨[], r⟩

def fail (e : ε) : Logged ε α := ofExcept (.error e)

def bind (x : Logged ε α) (f : α → Logged ε β) : Logged ε β :=
  match x.result with
  | .ok a => ⟨x.lines ++ (f a).lines, (f a).result⟩
  | .error e => ⟨x.lines, .error e⟩

instance : Monad (Logged ε) where
  pure a := ofExcept (.ok a)
  bind := bind

def mapError (f : ε → ε') (x : Logged ε α) : Logged ε' α :=
  ⟨x.lines, x.result.mapError f⟩

@[simp] theorem result_pure (a : α) : (pure a : Logged ε α).result = .ok a := rfl

@[simp] theorem result_ofExcept (r : Except ε α) : (ofExcept r).result = r := rfl

@[simp] theorem result_fail (e : ε) : (fail e : Logged ε α).result = .error e := rfl

@[simp] theorem result_bind (x : Logged ε α) (f : α → Logged ε β) :
    (x >>= f).result = x.result >>= fun a => (f a).result := by
  show (bind x f).result = _
  unfold bind
  cases x.result <;> rfl

@[simp] theorem result_mapError (f : ε → ε') (x : Logged ε α) :
    (x.mapError f).result = x.result.mapError f := rfl

theorem mapError_eq_ok {f : ε → ε'} {r : Except ε α} {a : α} :
    r.mapError f = .ok a ↔ r = .ok a := by
  cases r with
  | error e => exact iff_of_false (by rintro ⟨⟩) (by rintro ⟨⟩)
  | ok b =>
    show Except.ok b = Except.ok a ↔ _
    simp only [Except.ok.injEq]

theorem result_mapError_eq_ok {f : ε → ε'} {x : Logged ε α} {a : α} :
    (x.mapError f).result = .ok a ↔ x.result = .ok a :=
  mapError_eq_ok

theorem result_bind_eq_ok {x : Logged ε α} {f : α → Logged ε β} {b : β} :
    (x >>= f).result = .ok b ↔ ∃ a, x.result = .ok a ∧ (f a).result = .ok b := by
  rw [result_bind]
  cases h : x.result <;> simp [Bind.bind, Except.bind]

theorem result_bind_eq_error {x : Logged ε α} {f : α → Logged ε β} {e : ε} :
    (x >>= f).result = .error e ↔
      x.result = .error e ∨ ∃ a, x.result = .ok a ∧ (f a).result = .error e := by
  rw [result_bind]
  cases h : x.result <;> simp [Bind.bind, Except.bind]

end Logged

end Workyard
