/-!
# Byte offsets

Positions in a text are counted in the bytes of its UTF-8 form. A `Mark` is an offset at
which one character ends and the next begins, and a `Cursor` is a mark together with the
characters after it; both carry the proof, so that no operation can leave the boundaries.
-/

namespace Workyard.Text

set_option autoImplicit false

def byteLength : List Char → Nat
  | [] => 0
  | c :: cs => c.utf8Size + byteLength cs

@[simp] theorem byteLength_nil : byteLength [] = 0 := rfl

@[simp] theorem byteLength_cons (c : Char) (cs : List Char) :
    byteLength (c :: cs) = c.utf8Size + byteLength cs := rfl

@[simp] theorem byteLength_append (xs ys : List Char) :
    byteLength (xs ++ ys) = byteLength xs + byteLength ys := by
  induction xs with
  | nil => simp
  | cons x xs ih => simp [ih, Nat.add_assoc]

def dropBytes : Nat → List Char → List Char
  | _, [] => []
  | n, c :: cs => if n = 0 then c :: cs else dropBytes (n - c.utf8Size) cs

def takeBytes : Nat → List Char → List Char
  | _, [] => []
  | n, c :: cs => if n = 0 then [] else c :: takeBytes (n - c.utf8Size) cs

theorem utf8Size_ne_zero (c : Char) : c.utf8Size ≠ 0 :=
  Nat.pos_iff_ne_zero.1 c.utf8Size_pos

@[simp] theorem dropBytes_zero (cs : List Char) : dropBytes 0 cs = cs := by
  cases cs <;> rfl

@[simp] theorem takeBytes_zero (cs : List Char) : takeBytes 0 cs = [] := by
  cases cs <;> rfl

theorem dropBytes_byteLength (xs ys : List Char) : dropBytes (byteLength xs) (xs ++ ys) = ys := by
  induction xs with
  | nil => simp
  | cons x xs ih => simp [dropBytes, utf8Size_ne_zero, ih]

theorem takeBytes_byteLength (xs ys : List Char) : takeBytes (byteLength xs) (xs ++ ys) = xs := by
  induction xs with
  | nil => simp
  | cons x xs ih => simp [takeBytes, utf8Size_ne_zero, ih]

/-- An offset lies on a boundary when it is the length of a leading part of the text. -/
def Boundary (source : List Char) (offset : Nat) : Prop :=
  ∃ before after, source = before ++ after ∧ offset = byteLength before

theorem Boundary.le {source : List Char} {offset : Nat} (h : Boundary source offset) :
    offset ≤ byteLength source := by
  obtain ⟨before, after, rfl, rfl⟩ := h
  simp

/-- An offset of `source` that lies between two characters. -/
structure Mark (source : List Char) where
  offset : Nat
  boundary : Boundary source offset

/-- The text between two offsets. -/
def slice (source : List Char) (start stop : Nat) : List Char :=
  takeBytes (stop - start) (dropBytes start source)

/-- A place in `source` with the characters that follow it. -/
structure Cursor (source : List Char) where
  offset : Nat
  rest : List Char
  split : ∃ before, source = before ++ rest ∧ offset = byteLength before

namespace Cursor

variable {source : List Char}

def start (source : List Char) : Cursor source :=
  ⟨0, source, [], by simp⟩

def mark (c : Cursor source) : Mark source :=
  ⟨c.offset, by
    obtain ⟨before, h, ho⟩ := c.split
    exact ⟨before, c.rest, h, ho⟩⟩

def skip (n : Nat) (c : Cursor source) : Cursor source :=
  ⟨c.offset + byteLength (c.rest.take n), c.rest.drop n, by
    obtain ⟨before, h, ho⟩ := c.split
    exact ⟨before ++ c.rest.take n,
      h.trans (by rw [List.append_assoc, List.take_append_drop]), by simp [ho]⟩⟩

def peek (n : Nat) (c : Cursor source) : String :=
  String.ofList (c.rest.take n)

@[simp] theorem rest_start (source : List Char) : (start source).rest = source := rfl

@[simp] theorem rest_skip (n : Nat) (c : Cursor source) : (c.skip n).rest = c.rest.drop n := rfl

@[simp] theorem offset_mark (c : Cursor source) : c.mark.offset = c.offset := rfl

end Cursor

end Workyard.Text
