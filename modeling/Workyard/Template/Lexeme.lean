import Workyard.Template.Basic
import Workyard.Text.Blank

/-!
# Lexemes of templates

Text and tags. Values to print stand between double braces, statements between braces with a
percent sign, comments between braces with a number sign. A hyphen inside a bracket trims the
text next to it.
-/

namespace Workyard.Template

set_option autoImplicit false

inductive Tag where
  | comment
  | print (value : Expression)
  | insert (name : String)
  /-- The template extends another one. -/
  | extend (name : String)
  | opens (condition : Expression)
  /-- What comes next stands if the condition does and none before. -/
  | alternative (condition : Expression)
  | otherwise
  | closes
  deriving DecidableEq, Repr

inductive Lexeme where
  | text (text : List Char)
  | tag (tag : Tag) (trimBefore trimAfter : Bool)
  deriving DecidableEq, Repr

namespace Lexeme

/-- White space inside a tag. -/
def isTagSpace (c : Char) : Bool :=
  c == ' ' || c == '\t' || c == '\r' || c == '\n'

def skipSpace (cs : List Char) : List Char :=
  cs.dropWhile isTagSpace

/-- What follows a word that the text begins with. -/
def afterWord? (word : String) (cs : List Char) : Option (List Char) :=
  if word.toList.isPrefixOf cs then some (cs.drop word.length) else none

def isNameStart (c : Char) : Bool :=
  ('a' ≤ c && c ≤ 'z') || ('A' ≤ c && c ≤ 'Z') || c == '_'

def isNameChar (c : Char) : Bool :=
  isNameStart c || ('0' ≤ c && c ≤ '9')

/-- The rest of a name with dots between its parts, and what follows it. -/
def nameRest : List Char → List Char × List Char
  | '.' :: c :: cs =>
    if isNameChar c then
      let (name, rest) := nameRest cs
      ('.' :: c :: name, rest)
    else ([], '.' :: c :: cs)
  | c :: cs =>
    if isNameChar c then
      let (name, rest) := nameRest cs
      (c :: name, rest)
    else ([], c :: cs)
  | [] => ([], [])

/-- A text that ends at the next `quote`. -/
def quotedBy (quote : Char) (cs : List Char) : Option (String × List Char) :=
  match cs.dropWhile (· ≠ quote) with
  | [] => none
  | _ :: rest => some (String.ofList (cs.takeWhile (· ≠ quote)), rest)

def quotes : List Char := ['\x22', '\x27', '\x60']

def quoted? : List Char → Option (String × List Char)
  | c :: cs => if quotes.contains c then quotedBy c cs else none
  | [] => none

/-- The words for truth values; they are read also where a longer name begins with them. -/
def truthWords : List (String × Bool) :=
  [("true", true), ("false", false), ("True", true), ("False", false)]

def truth? (cs : List Char) : Option (Bool × List Char) :=
  truthWords.findSome? fun (word, value) => (afterWord? word cs).map (value, ·)

def name? : List Char → Option (String × List Char)
  | c :: cs =>
    if isNameStart c then
      let (name, rest) := nameRest cs
      some (String.ofList (c :: name), rest)
    else none
  | [] => none

def term? (cs : List Char) : Option (Term × List Char) :=
  match truth? cs with
  | some (b, rest) => some (.truth b, rest)
  | none =>
    match quoted? cs with
    | some (s, rest) => some (.quoted s, rest)
    | none => (name? cs).map fun (n, rest) => (.name n, rest)

/-- A word of negation needs white space after it. -/
def negation? (cs : List Char) : Option (List Char) :=
  match afterWord? "not" cs with
  | some (c :: rest) => if isTagSpace c then some rest else none
  | _ => none

def expression? (cs : List Char) : Option (Expression × List Char) :=
  let cs := skipSpace cs
  match negation? cs with
  | some rest => (term? (skipSpace rest)).map fun (t, rest) => (⟨true, t⟩, rest)
  | none => (term? cs).map fun (t, rest) => (⟨false, t⟩, rest)

/-- The end of a tag whose bracket is `mark` and a brace: whether it trims, and the rest. -/
def close? (mark : Char) (cs : List Char) : Option (Bool × List Char) :=
  match skipSpace cs with
  | '-' :: m :: '}' :: rest => if m = mark then some (true, rest) else none
  | m :: '}' :: rest => if m = mark then some (false, rest) else none
  | _ => none

/-- A hyphen right after an opening bracket. -/
def hyphen : List Char → Bool × List Char
  | '-' :: cs => (true, cs)
  | cs => (false, cs)

/-- A quoted name after white space. -/
def quotedName? (cs : List Char) : Option (String × List Char) :=
  match cs with
  | c :: rest => if isTagSpace c then quoted? (skipSpace rest) else none
  | [] => none

/-- A statement by its first word. -/
def statement? (cs : List Char) : Option (Tag × List Char) :=
  let cs := skipSpace cs
  match afterWord? "include" cs with
  | some rest => (quotedName? rest).map fun (n, rest) => (.insert n, rest)
  | none =>
  match afterWord? "extends" cs with
  | some rest => (quotedName? rest).map fun (n, rest) => (.extend n, rest)
  | none =>
  match afterWord? "if" cs with
  | some rest => (expression? rest).map fun (e, rest) => (.opens e, rest)
  | none =>
  match afterWord? "elif" cs with
  | some rest => (expression? rest).map fun (e, rest) => (.alternative e, rest)
  | none =>
  match afterWord? "else" cs with
  | some rest => some (.otherwise, rest)
  | none => (afterWord? "endif" cs).map (Tag.closes, ·)

/-- What follows a comment, and whether its end trims. -/
def afterComment? : List Char → Option (Bool × List Char)
  | '-' :: '#' :: '}' :: rest => some (true, rest)
  | '#' :: '}' :: rest => some (false, rest)
  | _ :: cs => afterComment? cs
  | [] => none

/-- The text before the next tag, and what follows it. -/
def textBefore : List Char → List Char × List Char
  | '{' :: c :: cs =>
    if c = '{' || c = '%' || c = '#' then ([], '{' :: c :: cs)
    else
      let (before, rest) := textBefore (c :: cs)
      ('{' :: before, rest)
  | c :: cs =>
    let (before, rest) := textBefore cs
    (c :: before, rest)
  | [] => ([], [])

def next? : List Char → Option (Lexeme × List Char)
  | '{' :: '{' :: cs => do
    let (before, cs) := hyphen cs
    let (e, cs) ← expression? cs
    let (after, cs) ← close? '}' cs
    some (.tag (.print e) before after, cs)
  | '{' :: '%' :: cs => do
    let (before, cs) := hyphen cs
    let (t, cs) ← statement? cs
    let (after, cs) ← close? '%' cs
    some (.tag t before after, cs)
  | '{' :: '#' :: cs => do
    let (before, cs) := hyphen cs
    let (after, cs) ← afterComment? cs
    some (.tag .comment before after, cs)
  | cs =>
    let (before, rest) := textBefore cs
    some (.text before, rest)

/-- At most `fuel` lexemes. -/
def listed : Nat → List Char → Option (List Lexeme)
  | _, [] => some []
  | 0, _ :: _ => none
  | fuel + 1, cs => do
    let (l, rest) ← next? cs
    (listed fuel rest).map (l :: ·)

/-- The lexemes of a text, each of which takes a character at least. -/
def all? (cs : List Char) : Option (List Lexeme) :=
  listed cs.length cs

/-- Whether the list begins with a tag that trims the text before it. -/
def trimsBefore : List Lexeme → Bool
  | .tag _ before _ :: _ => before
  | _ => false

/-- Trims the texts next to tags that say so; `after` is what the tag before says. -/
def trim (after : Bool) : List Lexeme → List Lexeme
  | [] => []
  | .text cs :: ls =>
    let cs := if after then Text.trimLeft cs else cs
    let cs := if trimsBefore ls then Text.trimRight cs else cs
    .text cs :: trim false ls
  | .tag t before after :: ls => .tag t before after :: trim after ls

end Lexeme

end Workyard.Template
