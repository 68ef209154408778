import Workyard.Diff.Settled

/-!
# Unified diffs

The difference of two texts as hunks of lines, each with at most three lines that stay on
either side. A line ends with a line feed, with a carriage return, or with both; a last line
without an end is noted.
-/

namespace Workyard.Diff

set_option autoImplicit false

/-- A line with its end. -/
abbrev Line := List Char

def linesOf : List Char → List Line
  | [] => []
  | '\r' :: '\n' :: cs => ['\r', '\n'] :: linesOf cs
  | c :: cs =>
    if c = '\n' || c = '\r' then [c] :: linesOf cs
    else
      match linesOf cs with
      | [] => [[c]]
      | l :: ls => (c :: l) :: ls

/-- A stretch of lines that stay, or of lines that come in the place of others. -/
inductive Block where
  | same (lines : List Line)
  | change (old new : List Line)

namespace Block

def old : Block → List Line
  | same ls => ls
  | change old _ => old

def new : Block → List Line
  | same ls => ls
  | change _ new => new

end Block

/-- Puts a run in front of blocks; deletions and insertions next to each other are one change. -/
def prepend (r : Run Line) (bs : List Block) : List Block :=
  match r.action, bs with
  | .keep, .same ls :: bs => .same (r.items ++ ls) :: bs
  | .keep, bs => .same r.items :: bs
  | .delete, .change old new :: bs => .change (r.items ++ old) new :: bs
  | .delete, bs => .change r.items [] :: bs
  | .insert, .change old new :: bs => .change old (r.items ++ new) :: bs
  | .insert, bs => .change [] r.items :: bs

def blocksOf (s : Script Line) : List Block :=
  s.foldr prepend []

/-- Blocks after so many old and so many new lines. -/
structure Hunk where
  oldBefore : Nat
  newBefore : Nat
  blocks : List Block

namespace Hunk

def old (h : Hunk) : List Line := h.blocks.flatMap (·.old)

def new (h : Hunk) : List Line := h.blocks.flatMap (·.new)

def add (h : Hunk) (b : Block) : Hunk :=
  { h with blocks := h.blocks ++ [b] }

/-- An empty hunk after this one and as many lines that stay. -/
def after (h : Hunk) (skipped : Nat) : Hunk :=
  ⟨h.oldBefore + h.old.length + skipped, h.newBefore + h.new.length + skipped, []⟩

def isShown (h : Hunk) : Bool :=
  h.blocks.any fun
    | .same _ => false
    | .change _ _ => true

end Hunk

/-- How many lines that stay are shown next to a change. -/
def context : Nat := 3

/-- Divides blocks into hunks wherever more lines stay than two contexts show. -/
def hunksFrom (h : Hunk) : List Block → List Hunk
  | [] => [h]
  | .change old new :: bs => hunksFrom (h.add (.change old new)) bs
  | .same ls :: bs =>
    if bs.isEmpty then [h.add (.same (ls.take context))]
    else if ls.length > 2 * context then
      let h := h.add (.same (ls.take context))
      h :: hunksFrom ((h.after (ls.length - 2 * context)).add
        (.same (ls.drop (ls.length - context)))) bs
    else hunksFrom (h.add (.same ls)) bs

/-- The hunks of blocks. Of the lines before the first change only the last ones are shown. -/
def hunks : List Block → List Hunk
  | .same ls :: bs =>
    let skipped := ls.length - context
    (hunksFrom ⟨skipped, skipped, [.same (ls.drop skipped)]⟩ bs).filter (·.isShown)
  | bs => (hunksFrom ⟨0, 0, []⟩ bs).filter (·.isShown)

/-- A range of lines by its first one and their number; the number one is left out, and an
empty range is named by the line before it. -/
def rangeText (before count : Nat) : String :=
  if count = 1 then (before + 1).repr
  else if count = 0 then before.repr ++ ",0"
  else (before + 1).repr ++ "," ++ count.repr

def endsLine (c : Char) : Bool :=
  c == '\n' || c == '\r'

/-- A line behind a sign; one that has no end is noted. -/
def signed (sign : Char) (l : Line) : List Char :=
  sign :: l ++
    if (l.getLast?.map endsLine).getD false then []
    else "\n\\ No newline at end of file\n".toList

def Block.text : Block → List Char
  | .same ls => ls.flatMap (signed ' ')
  | .change old new => old.flatMap (signed '-') ++ new.flatMap (signed '+')

def Hunk.text (h : Hunk) : List Char :=
  ("@@ -" ++ rangeText h.oldBefore h.old.length ++ " +" ++ rangeText h.newBefore h.new.length ++
    " @@\n").toList ++ h.blocks.flatMap (·.text)

def hunksBetween (old new : String) : List Hunk :=
  hunks (blocksOf (settled (script (linesOf old.toList) (linesOf new.toList))))

/-- The unified diff of two texts under the given names, which is empty for equal texts. -/
def unified (oldName newName : String) (old new : String) : String :=
  match hunksBetween old new with
  | [] => ""
  | hs => "--- " ++ oldName ++ "\n+++ " ++ newName ++ "\n" ++
    String.ofList (hs.flatMap (·.text))

end Workyard.Diff
