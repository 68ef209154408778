import Workyard.Disk.Basic
import Workyard.Log

/-!
# Work on a disk

A computation that changes a disk and may fail on its way; what it did before a failure stays
done. Any operation may also fail for reasons that lie outside the disk: a list of mishaps
says of the operations to come which of them do. An operation that fails leaves its target as
it was, except that a failing write may leave a part of the text.
-/

namespace Workyard.Disk

set_option autoImplicit false

/-- Why an operation fails, and what is left of a text that it was to write. -/
structure Mishap where
  fault : Fault
  written : Option String
  deriving DecidableEq, Repr

/-- A disk under work. -/
structure Session where
  disk : Disk
  /-- What befalls the next operations; after the last one nothing does. -/
  ahead : List (Option Mishap)
  lines : List Log.Line

/-- What befalls the next operation, and the session after that is known. -/
def Session.next (s : Session) : Option Mishap × Session :=
  match s.ahead with
  | [] => (none, s)
  | m :: ms => (m, { s with ahead := ms })

structure Work (ε α : Type) where
  run : Session → Except ε α × Session

namespace Work

variable {ε ε' α β : Type}

def bind (x : Work ε α) (f : α → Work ε β) : Work ε β where
  run s :=
    match x.run s with
    | (.ok a, s) => (f a).run s
    | (.error e, s) => (.error e, s)

instance : Monad (Work ε) where
  pure a := ⟨fun s => (.ok a, s)⟩
  bind := bind

def fail (e : ε) : Work ε α := ⟨fun s => (.error e, s)⟩

def say (level : Log.Level) (text : String) : Work ε Unit :=
  ⟨fun s => (.ok (), { s with lines := s.lines ++ [⟨level, text⟩] })⟩

def disk : Work ε Disk :=
  ⟨fun s => (.ok s.disk, s)⟩

def mapError (f : ε → ε') (x : Work ε α) : Work ε' α where
  run s :=
    match x.run s with
    | (r, s) => (r.mapError f, s)

/-- Does something else after a failure. -/
def rescue (x : Work ε α) (f : ε → Work ε' α) : Work ε' α where
  run s :=
    match x.run s with
    | (.ok a, s) => (.ok a, s)
    | (.error e, s) => (f e).run s

/-- A result that was found without work, with what it logged. -/
def ofLogged (x : Logged ε α) : Work ε α :=
  ⟨fun s => (x.result, { s with lines := s.lines ++ x.lines })⟩

def readText (p : FilePath) : Work Fault String where
  run s :=
    match s.next with
    | (some m, s) => (.error m.fault, s)
    | (none, s) => (s.disk.readText p, s)

/-- What a failing write leaves on a disk. -/
def leave (d : Disk) (p : FilePath) (m : Mishap) : Disk :=
  match m.written with
  | none => d
  | some text => (d.writeFile p (.text text)).toOption.getD d

def writeText (p : FilePath) (text : String) : Work Fault Unit where
  run s :=
    match s.next with
    | (some m, s) => (.error m.fault, { s with disk := leave s.disk p m })
    | (none, s) =>
      match s.disk.writeFile p (.text text) with
      | .ok d => (.ok (), { s with disk := d })
      | .error f => (.error f, s)

def rename (source target : FilePath) : Work Fault Unit where
  run s :=
    match s.next with
    | (some m, s) => (.error m.fault, s)
    | (none, s) =>
      match s.disk.rename source target with
      | .ok d => (.ok (), { s with disk := d })
      | .error f => (.error f, s)

/-- Makes a directory and those above it that are missing. No mishap befalls this. -/
def makeDirectories (p : FilePath) : Work Fault Unit where
  run s :=
    match s.disk.makeDirectories p with
    | (d, none) => (.ok (), { s with disk := d })
    | (d, some f) => (.error f, { s with disk := d })

/-- Puts things right again: changes the disk unless that fails, and says whether it did. No
mishap befalls this. -/
def mend (change : Disk → Except Fault Disk) : Work ε (Option Fault) where
  run s :=
    match change s.disk with
    | .ok d => (.ok none, { s with disk := d })
    | .error f => (.ok (some f), s)

@[simp] theorem run_pure (a : α) (s : Session) : (pure a : Work ε α).run s = (.ok a, s) := rfl

@[simp] theorem run_fail (e : ε) (s : Session) :
    (fail e : Work ε α).run s = (.error e, s) := rfl

theorem run_bind (x : Work ε α) (f : α → Work ε β) (s : Session) :
    (x >>= f).run s =
      match x.run s with
      | (.ok a, s) => (f a).run s
      | (.error e, s) => (.error e, s) := rfl

theorem run_bind_of_ok {x : Work ε α} {a : α} {s s' : Session} (h : x.run s = (.ok a, s'))
    (f : α → Work ε β) : (x >>= f).run s = (f a).run s' := by
  rw [run_bind, h]

theorem run_bind_of_error {x : Work ε α} {e : ε} {s s' : Session}
    (h : x.run s = (.error e, s')) (f : α → Work ε β) : (x >>= f).run s = (.error e, s') := by
  rw [run_bind, h]

theorem run_bind_eq_ok {x : Work ε α} {f : α → Work ε β} {b : β} {s s' : Session}
    (h : (x >>= f).run s = (.ok b, s')) :
    ∃ a t, x.run s = (.ok a, t) ∧ (f a).run t = (.ok b, s') := by
  rw [run_bind] at h
  split at h
  · rename_i a t hx
    exact ⟨a, t, hx, h⟩
  · simp at h

theorem run_map (f : α → β) (x : Work ε α) (s : Session) :
    (f <$> x).run s =
      match x.run s with
      | (.ok a, s) => (.ok (f a), s)
      | (.error e, s) => (.error e, s) := rfl

@[simp] theorem run_say (level : Log.Level) (text : String) (s : Session) :
    (say level text : Work ε Unit).run s =
      (.ok (), { s with lines := s.lines ++ [⟨level, text⟩] }) := rfl

@[simp] theorem run_disk (s : Session) : (disk : Work ε Disk).run s = (.ok s.disk, s) := rfl

theorem run_mapError_of_ok {x : Work ε α} {a : α} {s s' : Session} (h : x.run s = (.ok a, s'))
    (f : ε → ε') : (x.mapError f).run s = (.ok a, s') := by
  simp only [mapError, h]
  rfl

theorem run_mapError_of_error {x : Work ε α} {e : ε} {s s' : Session}
    (h : x.run s = (.error e, s')) (f : ε → ε') : (x.mapError f).run s = (.error (f e), s') := by
  simp only [mapError, h]
  rfl

theorem run_rescue_of_ok {x : Work ε α} {a : α} {s s' : Session} (h : x.run s = (.ok a, s'))
    (f : ε → Work ε' α) : (x.rescue f).run s = (.ok a, s') := by
  simp [rescue, h]

theorem run_rescue_of_error {x : Work ε α} {e : ε} {s s' : Session}
    (h : x.run s = (.error e, s')) (f : ε → Work ε' α) :
    (x.rescue f).run s = (f e).run s' := by
  simp [rescue, h]

theorem run_mapError_eq_ok {x : Work ε α} {f : ε → ε'} {a : α} {s s' : Session}
    (h : (x.mapError f).run s = (.ok a, s')) : x.run s = (.ok a, s') := by
  obtain ⟨r, t, hx⟩ : ∃ r t, x.run s = (r, t) := ⟨_, _, rfl⟩
  cases r with
  | ok b =>
    rw [run_mapError_of_ok hx] at h
    obtain ⟨hb, rfl⟩ := Prod.mk.inj h
    rw [hx, Except.ok.inj hb]
  | error e => simp [run_mapError_of_error hx] at h

theorem run_rescue_eq_ok {x : Work ε α} {f : ε → Work ε' α} {a : α} {s s' : Session}
    (h : (x.rescue f).run s = (.ok a, s')) :
    x.run s = (.ok a, s') ∨ ∃ e t, x.run s = (.error e, t) ∧ (f e).run t = (.ok a, s') := by
  obtain ⟨r, t, hx⟩ : ∃ r t, x.run s = (r, t) := ⟨_, _, rfl⟩
  cases r with
  | ok b =>
    rw [run_rescue_of_ok hx] at h
    obtain ⟨hb, rfl⟩ := Prod.mk.inj h
    exact .inl (by rw [hx, Except.ok.inj hb])
  | error e =>
    rw [run_rescue_of_error hx] at h
    exact .inr ⟨e, t, hx, h⟩

theorem run_mend (change : Disk → Except Fault Disk) (s : Session) :
    ∃ f, (mend change : Work ε (Option Fault)).run s =
      (.ok f, { s with disk := (change s.disk).toOption.getD s.disk }) := by
  cases h : change s.disk with
  | ok d => exact ⟨none, by simp [mend, h, Except.toOption]⟩
  | error f => exact ⟨some f, by simp [mend, h, Except.toOption]⟩

end Work

/-- Does work on a disk that nothing befalls from outside. -/
def Session.start (d : Disk) : Session := ⟨d, [], []⟩

end Workyard.Disk
