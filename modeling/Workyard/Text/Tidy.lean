import Workyard.Text.Blank
import Workyard.Text.Separated

/-!
# Tidy text

Line endings become line feeds, white space at the end of a line goes, runs of blank lines
become one blank line, and those at the start and at the end go. A part of the text may be
kept: the lines that touch its first occurrence stay as they are.
-/

namespace Workyard.Text

set_option autoImplicit false

/-- A carriage return before a line feed is dropped. -/
def joinLineEnds : List Char → List Char
  | '\r' :: '\n' :: cs => '\n' :: joinLineEnds cs
  | c :: cs => c :: joinLineEnds cs
  | [] => []

def returnToFeed (c : Char) : Char :=
  if c = '\r' then '\n' else c

/-- Every line ends with a line feed alone. -/
def unixLines (cs : List Char) : List Char :=
  (joinLineEnds cs).map returnToFeed

def indexOf? (needle : List Char) : List Char → Option Nat
  | [] => if needle = [] then some 0 else none
  | c :: cs =>
    if needle.isPrefixOf (c :: cs) then some 0
    else (indexOf? needle cs).map (· + 1)

/-- A stretch of a text: the characters from `start` on and before `stop`. -/
structure Span where
  start : Nat
  stop : Nat
  deriving DecidableEq, Repr

/-- Whether a line from `start` to `stop` reaches into the span. -/
def Span.touches (s : Span) (start stop : Nat) : Bool :=
  start < s.stop && s.start < stop

/-- Where the first occurrence of a text is, if the text is not empty. -/
def occurrence? (needle cs : List Char) : Option Span :=
  if needle = [] then none
  else (indexOf? needle cs).map fun n => ⟨n, n + needle.length⟩

/-- A line and whether it stays as it is. -/
structure Line where
  text : List Char
  kept : Bool
  deriving DecidableEq, Repr

/-- Marks the lines that a span touches, the first of which begins at `start`. -/
def markLines (kept : Option Span) : Nat → List (List Char) → List Line
  | _, [] => []
  | start, l :: ls =>
    ⟨l, (kept.map (·.touches start (start + l.length))).getD false⟩ ::
      markLines kept (start + l.length + 1) ls

/-- What stands before the next line that is written. -/
inductive Gap where
  /-- No line has been written. -/
  | top
  /-- The line before was written. -/
  | none
  /-- Blank lines came after the last line that was written. -/
  | blank
  deriving DecidableEq, Repr

def Gap.widen : Gap → Gap
  | top => top
  | _ => blank

def Gap.text : Gap → List Char
  | blank => ['\n']
  | _ => []

def Line.shown (l : Line) : List Char :=
  if l.kept then l.text else trimRight l.text

/-- A line of which nothing is written. -/
def Line.isDropped (l : Line) : Bool :=
  !l.kept && l.shown.isEmpty

def writeLines : Gap → List Line → List Char
  | _, [] => []
  | gap, l :: ls =>
    if l.isDropped then writeLines gap.widen ls
    else gap.text ++ l.shown ++ '\n' :: writeLines .none ls

def tidyChars (keep content : List Char) : List Char :=
  let content := unixLines content
  writeLines .top (markLines (occurrence? (unixLines keep) content) 0 (splitAt '\n' content))

/-- Tidies a text, except for the lines that touch the first occurrence of `keep`. -/
def tidy (content : String) (keep : Option String) : String :=
  String.ofList (tidyChars ((keep.map (·.toList)).getD []) content.toList)

/-- A text whose carriage returns before line feeds are dropped. -/
def withJoinedLineEnds (s : String) : String :=
  String.ofList (joinLineEnds s.toList)

theorem not_mem_unixLines (cs : List Char) : '\r' ∉ unixLines cs := by
  simp only [unixLines, List.mem_map, not_exists, not_and]
  intro c _ h
  by_cases hc : c = '\r'
  · subst hc
    exact absurd h (by decide)
  · simp [returnToFeed, hc] at h

end Workyard.Text
