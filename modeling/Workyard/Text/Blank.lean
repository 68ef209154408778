/-!
# White space and blank text

Which characters count as white space, texts made of nothing else, and trimming.
The characters are those with the Unicode property `White_Space`.
-/

namespace Workyard.Text

set_option autoImplicit false

/-- The Unicode property `White_Space`. -/
def isBlankChar (c : Char) : Bool :=
  let n := c.toNat
  (0x9 ≤ n && n ≤ 0xD) || n == 0x20 || n == 0x85 || n == 0xA0 || n == 0x1680 ||
  (0x2000 ≤ n && n ≤ 0x200A) || n == 0x2028 || n == 0x2029 || n == 0x202F ||
  n == 0x205F || n == 0x3000

/-- A text is blank when it is empty or holds white space only. -/
def isBlank (s : String) : Bool :=
  s.toList.all isBlankChar

def trimLeft (cs : List Char) : List Char :=
  cs.dropWhile isBlankChar

def trimRight (cs : List Char) : List Char :=
  (cs.reverse.dropWhile isBlankChar).reverse

theorem isBlankChar_of_isWhitespace {c : Char} (h : c.isWhitespace = true) :
    isBlankChar c = true := by
  simp only [Char.isWhitespace, Bool.or_eq_true, decide_eq_true_eq] at h
  rcases h with ((h | h) | h) | h <;> subst h <;> decide

theorem isBlank_iff {s : String} : isBlank s = true ↔ ∀ c ∈ s.toList, isBlankChar c = true := by
  simp [isBlank]

@[simp] theorem trimRight_nil : trimRight [] = [] := rfl

theorem trimRight_concat (cs : List Char) (c : Char) :
    trimRight (cs ++ [c]) = if isBlankChar c then trimRight cs else cs ++ [c] := by
  by_cases h : isBlankChar c <;> simp [trimRight, h]

end Workyard.Text
