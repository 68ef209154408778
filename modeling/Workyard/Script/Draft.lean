import Workyard.Script.Tree
import Workyard.Script.Lexeme

/-!
# Drafts

A draft is the part of a syntax tree that has been read so far: the children of the node
under construction, the latest first, and the place where reading goes on. Every step of the
grammar adds nodes to a draft.
-/

namespace Workyard.Script

set_option autoImplicit false

open Workyard.Text

variable {source : List Char}

structure Draft (source : List Char) where
  nodes : List (Node source)
  cursor : Cursor source

namespace Draft

/-- Nothing read yet, at the given place. -/
def fresh (c : Cursor source) : Draft source := ⟨[], c⟩

def rest (d : Draft source) : List Char := d.cursor.rest

def token (kind : Kind) (n : Nat) (d : Draft source) : Draft source :=
  ⟨.leaf kind d.cursor.mark (d.cursor.peek n) :: d.nodes, d.cursor.skip n⟩

def sign (n : Nat) (d : Draft source) : Draft source :=
  d.token .punctuation n

def missing (d : Draft source) : Draft source :=
  ⟨.leaf .missing d.cursor.mark "" :: d.nodes, d.cursor⟩

/-- One character that fits nowhere. -/
def stray (d : Draft source) : Draft source :=
  d.token .error 1

/-- The given token when it stands here; otherwise the place where it is missing. -/
def expect (s : String) (d : Draft source) : Draft source :=
  if Lexeme.startsWith s d.rest then d.sign s.length else d.missing

/-- All that was read becomes one node. -/
def close (kind : Kind) (start : Cursor source) (d : Draft source) : Draft source :=
  ⟨[.branch kind start.mark d.cursor.mark d.nodes.reverse], d.cursor⟩

def append (d inner : Draft source) : Draft source :=
  ⟨inner.nodes ++ d.nodes, inner.cursor⟩

/-- A node with the children that `read` reads. -/
def enclose (kind : Kind) (read : Draft source → Draft source) (d : Draft source) :
    Draft source :=
  d.append ((read (fresh d.cursor)).close kind d.cursor)

/-- The latest node under another kind. -/
def retag (change : Node source → Node source) (d : Draft source) : Draft source :=
  match d.nodes with
  | [] => d
  | n :: ns => ⟨change n :: ns, d.cursor⟩

/-- Passes over white space and comments, which become nodes; comments in the manner of HTML
only where `html` allows them. -/
def layout (html : Bool) : Nat → Draft source → Draft source
  | 0, d => d
  | fuel + 1, d =>
    let d := ⟨d.nodes, d.cursor.skip (Lexeme.space d.rest)⟩
    let n := Lexeme.comment d.rest
    let m := if html then Lexeme.htmlComment d.rest else 0
    if n != 0 then layout html fuel (d.token .comment n)
    else if m != 0 then layout html fuel (d.token .htmlComment m)
    else d

/-- White space and comments where an operand or a statement may begin. -/
def space (d : Draft source) : Draft source :=
  d.layout true (d.rest.length + 1)

/-- White space and comments after an operand, where `<` is an operator. -/
def gap (d : Draft source) : Draft source :=
  d.layout false (d.rest.length + 1)

def word (d : Draft source) : String :=
  d.cursor.peek (Lexeme.word d.rest)

def beginsWith (s : String) (d : Draft source) : Bool :=
  Lexeme.startsWith s d.rest

/-- Whether a line ends in the white space and comments ahead. A line end within a block
comment does not count. -/
def lineEndsIn : Nat → List Char → Bool
  | 0, _ => false
  | fuel + 1, cs =>
    let n := Lexeme.space cs
    if (cs.take n).any Lexeme.isLineEnd then true
    else
      let m := Lexeme.comment (cs.drop n)
      if m = 0 then false else lineEndsIn fuel ((cs.drop n).drop m)

def lineEnds (d : Draft source) : Bool :=
  lineEndsIn (d.rest.length + 1) d.rest

/-- Whether the word `in` or `instanceof` stands ahead. -/
def wordOperator (cs : List Char) : Bool :=
  let w := cs.take (Lexeme.word cs)
  w == "in".toList || w == "instanceof".toList

/-- Whether a statement may go on in the next line with what stands there. -/
def continuesLine (cs : List Char) : Bool :=
  match cs with
  | '.' :: d :: _ => !d.isDigit
  | '+' :: c :: _ => c != '+'
  | '-' :: c :: _ => c != '-'
  | '!' :: c :: _ => c == '='
  | c :: _ => "\x60,:;*%><=[(?^&|/.+-".toList.contains c || wordOperator cs
  | [] => false

/-- Whether a statement may end here without a semicolon. -/
def endsHere (d : Draft source) : Bool :=
  match d.gap.rest with
  | [] => true
  | '\x7d' :: _ => true
  | cs => d.lineEnds && !continuesLine cs

/-- The end of a statement, with the answer whether it may end here. -/
def semicolon (d : Draft source) : Bool × Draft source :=
  if d.gap.beginsWith ";" then (true, d.gap.sign 1)
  else (d.endsHere, d)

/-- A statement: what `read` reads, up to its end. One that may not end where it does is a
fault. -/
def sentence (kind : Kind) (read : Draft source → Draft source) (d : Draft source) :
    Draft source :=
  let (ended, inner) := (read (fresh d.cursor)).semicolon
  d.append (inner.close (if ended then kind else .error) d.cursor)

@[simp] theorem cursor_append (d inner : Draft source) :
    (d.append inner).cursor = inner.cursor := rfl

@[simp] theorem nodes_append (d inner : Draft source) :
    (d.append inner).nodes = inner.nodes ++ d.nodes := rfl

@[simp] theorem cursor_close (kind : Kind) (start : Cursor source) (d : Draft source) :
    (d.close kind start).cursor = d.cursor := rfl

@[simp] theorem rest_token (kind : Kind) (n : Nat) (d : Draft source) :
    (d.token kind n).rest = d.rest.drop n := rfl

end Draft

end Workyard.Script
