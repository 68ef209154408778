import Workyard.Script.Draft
import Workyard.Script.Pattern

/-!
# The grammar of scripts

JavaScript with JSX elements, read by recursive descent. A step that meets a token it cannot
use marks a fault and goes on: a token that ought to be there becomes a missing one, a token
that is one too many becomes an error. Chains of binary operators are not sorted by
precedence, since nobody asks for more than the operands and their order.

The first argument of every function bounds the depth of the reading. Each level of nesting
and each step of a list costs a fixed number of levels, so that a bound linear in the length
of the text is never met.
-/

namespace Workyard.Script

set_option autoImplicit false

open Workyard.Text

variable {source : List Char}

/-- Characters that close something around the place where they stand. -/
def stopsHere (cs : List Char) : Bool :=
  match cs with
  | [] => true
  | c :: _ => ")];\x7d".toList.contains c

/-- Whether an operand may begin with what stands ahead. -/
def startsOperand (cs : List Char) : Bool :=
  match cs with
  | [] => false
  | c :: _ =>
    Lexeme.word cs != 0 || Lexeme.number cs != 0 ||
      "([\x7b\x22\x27\x60/<!~+-#@".toList.contains c

/-- Whether the name of a property may begin with what stands ahead. -/
def startsProperty (cs : List Char) : Bool :=
  match cs with
  | [] => false
  | c :: _ => Lexeme.word cs != 0 || Lexeme.number cs != 0 || "\x22\x27[#".toList.contains c

/-- Brackets around a list of members, items or arguments. -/
inductive Listing where
  | members | items | values
  deriving DecidableEq

def Listing.closing : Listing → Char
  | .members => '\x7d'
  | .items => ']'
  | .values => ')'

namespace Draft

/-- The rest of a quoted string, after its opening quote. White space between the last piece
and the closing quote may hold line ends; it is part of the string. -/
def quotedTail (quote : Char) : Nat → Draft source → Draft source
  | 0, d => d.missing
  | fuel + 1, d =>
    let n := Lexeme.fragment quote d.rest
    let d := if n = 0 then d else d.token .fragment n
    match d.rest with
    | '\\' :: _ =>
      let m := Lexeme.escape d.rest
      quotedTail quote fuel (if m = 0 then d.stray else d.token .escape m)
    | c :: _ =>
      if c == quote then d.sign 1
      else if d.gap.rest.head? == some quote then
        (d.token .fragment (d.rest.length - d.gap.rest.length)).sign 1
      else d.missing
    | [] => d.missing

def quoted (quote : Char) (d : Draft source) : Draft source :=
  d.enclose .string fun b => quotedTail quote (b.rest.length + 1) (b.sign 1)

def number (d : Draft source) : Draft source :=
  d.token .number (Lexeme.number d.rest)

def wordToken (kind : Kind) (d : Draft source) : Draft source :=
  d.token kind (Lexeme.word d.rest)

/-- The name of a markup element or of one of its attributes. -/
def tagName (d : Draft source) : Draft source :=
  let n := (d.rest.takeWhile fun c => Lexeme.isWordPart c || c == '-' || c == '.' || c == ':').length
  if n = 0 then d else d.token .propertyName n

/-- Children of parentheses, read as parameters, under the rules of an expression: there is
exactly one, and it is not spread; several become one sequence. -/
def asParenthesized (start : Cursor source) (d : Draft source) : Draft source :=
  let children := d.nodes.reverse
  let isItem := fun n : Node source =>
    n.kind.isSignificant && n.kind != .htmlComment
  match children.filter isItem with
  | [] => (d.missing).close .parenthesized start
  | [n] =>
    if n.kind == .spread || children.any (fun n => n.text == ",") then
      d.close .error start
    else d.close .parenthesized start
  | n :: ns =>
    let commas := (children.filter fun n => n.text == ",").length
    if commas != ns.length || (n :: ns).any (·.kind == .spread) then d.close .error start
    else
      let outer := children.takeWhile fun n => !isItem n
      let inner := (children.dropWhile fun n => !isItem n).reverse
      let closing := inner.takeWhile fun n => !isItem n
      let middle := (inner.dropWhile fun n => !isItem n).reverse
      let last := (middle.getLast?).getD n
      let stop : Mark source :=
        match last with
        | .leaf _ _ _ => d.cursor.mark
        | .branch _ _ m _ => m
      let sequence := Node.branch .sequence n.start stop middle
      close .parenthesized start ⟨closing ++ sequence :: outer.reverse, d.cursor⟩

/-- A property name after a sign of `n` characters. -/
def propertyAfter (d : Draft source) (n : Nat) : Draft source :=
  let d := if n = 0 then d else (d.sign n).gap
  match d.rest with
  | '#' :: cs => if Lexeme.word cs = 0 then d.missing else d.token .privateName (Lexeme.word cs + 1)
  | cs => if Lexeme.word cs = 0 then d.missing else d.wordToken .propertyName

mutual

-- Expressions

def expressions : Nat → Draft source → Draft source
  | 0, d => d.missing
  | fuel + 1, d =>
    let e := expression fuel (fresh d.cursor)
    d.append (expressionsTail fuel d.cursor e)

def expressionsTail : Nat → Cursor source → Draft source → Draft source
  | 0, _, e => e.missing
  | fuel + 1, start, e =>
    if e.gap.beginsWith "," then
      let e := expression fuel (e.gap.sign 1).space
      expressionsTail fuel start (e.close .sequence start)
    else e

def expression : Nat → Draft source → Draft source
  | 0, d => d.missing
  | fuel + 1, d =>
    let e := operand fuel (fresh d.cursor)
    let e := binaryTail fuel d.cursor e
    if Lexeme.choice e.gap.rest != 0 then
      let e := expression fuel (e.gap.sign 1).space
      let e := expression fuel (e.gap.expect ":").space
      d.append (e.close .ternary d.cursor)
    else d.append e

def binaryTail : Nat → Cursor source → Draft source → Draft source
  | 0, _, e => e.missing
  | fuel + 1, start, e =>
    let n := Lexeme.binary e.gap.rest
    if n = 0 then e
    else
      let e := operand fuel (e.gap.sign n).space
      binaryTail fuel start (e.close .binary start)

def operand : Nat → Draft source → Draft source
  | 0, d => d.missing
  | fuel + 1, d =>
    if d.beginsWith "++" || d.beginsWith "--" then
      d.enclose .update fun b => operand fuel (b.sign 2).space
    else if "!~+-".toList.any fun c => d.rest.head? == some c then
      d.enclose .unary fun b => operand fuel (b.sign 1).space
    else
      match d.word with
      | "typeof" | "void" | "delete" =>
        d.enclose .unary fun b => operand fuel (b.wordToken .punctuation).space
      | "await" => d.enclose .other fun b => operand fuel (b.wordToken .punctuation).space
      | "yield" => d.enclose .other fun b => yielded fuel (b.wordToken .punctuation)
      | _ => postfixed fuel d

/-- The value after the word `yield`, if there is one. -/
def yielded : Nat → Draft source → Draft source
  | 0, d => d.missing
  | fuel + 1, d =>
    if d.gap.beginsWith "*" then expression fuel (d.gap.sign 1).space
    else if startsOperand d.gap.rest && !wordOperator d.gap.rest && d.gap.word != "of" then
      expression fuel d.space
    else d

/-- A primary with members, calls and an assignment after it. -/
def postfixed : Nat → Draft source → Draft source
  | 0, d => d.missing
  | fuel + 1, d =>
    let e := primary fuel (fresh d.cursor)
    let e := postfixTail fuel true d.cursor e
    d.append (assigned fuel d.cursor e)

/-- Members, tagged templates and calls after a primary. What `new` makes reaches up to its
arguments, so that without `calls` no plain call is read. -/
def postfixTail : Nat → Bool → Cursor source → Draft source → Draft source
  | 0, _, _, e => e.missing
  | fuel + 1, calls, start, e =>
    let g := e.gap
    match g.rest with
    | '(' :: _ =>
      if calls then postfixTail fuel calls start ((arguments fuel g).close .call start) else e
    | '\x60' :: _ => postfixTail fuel calls start ((template fuel g).close .call start)
    | '[' :: _ => postfixTail fuel calls start ((subscript fuel g).close .member start)
    | '.' :: _ =>
      postfixTail fuel calls start ((propertyAfter g 1).close .member start)
    | '?' :: '.' :: c :: _ =>
      if c.isDigit then e
      else
        let g := (g.sign 2).gap
        match g.rest with
        | '(' :: _ => postfixTail fuel calls start ((arguments fuel g).close .call start)
        | '[' :: _ => postfixTail fuel calls start ((subscript fuel g).close .member start)
        | _ => postfixTail fuel calls start ((propertyAfter g 0).close .member start)
    | '+' :: '+' :: _ =>
      if calls && !e.lineEnds then postfixTail fuel calls start ((g.sign 2).close .update start)
      else e
    | '-' :: '-' :: _ =>
      if calls && !e.lineEnds then postfixTail fuel calls start ((g.sign 2).close .update start)
      else e
    | _ => e

def subscript : Nat → Draft source → Draft source
  | 0, d => d.missing
  | fuel + 1, d => (expressions fuel (d.sign 1).space).gap.expect "]"

/-- An assignment to what was just read, when a sign that assigns follows. -/
def assigned : Nat → Cursor source → Draft source → Draft source
  | 0, _, e => e.missing
  | fuel + 1, start, e =>
    let n := Lexeme.assignment e.gap.rest
    match e.nodes with
    | [t] =>
      if n = 1 && t.isTarget then
        (expression fuel ((e.retag (·.toPattern)).gap.sign 1).space).close .assignment start
      else if 1 < n && t.isReference then
        (expression fuel (e.gap.sign n).space).close .assignment start
      else e
    | _ => e

def primary : Nat → Draft source → Draft source
  | 0, d => d.missing
  | fuel + 1, d =>
    match d.rest with
    | '(' :: _ => parenthesized fuel d
    | '[' :: _ => d.enclose .array fun b => entries fuel .items (b.sign 1)
    | '\x7b' :: _ => d.enclose .object fun b => entries fuel .members (b.sign 1)
    | '\x22' :: _ => d.quoted '\x22'
    | '\x27' :: _ => d.quoted '\x27'
    | '\x60' :: _ => template fuel d
    | '<' :: _ => element fuel d
    | '/' :: _ =>
      let n := Lexeme.regex d.rest
      if n = 0 then d.token .error (d.rest.takeWhile fun c => !Lexeme.isLineEnd c).length
      else d.token .regex n
    | '#' :: cs => if Lexeme.word cs = 0 then astray fuel d else
        if (Draft.token .privateName (Lexeme.word cs + 1) d).gap.word == "in" then
          d.token .privateName (Lexeme.word cs + 1)
        else d.token .error (Lexeme.word cs + 1)
    | '@' :: _ => d.enclose .other fun b => classTail fuel (decorators fuel b)
    | _ =>
      if Lexeme.number d.rest != 0 then d.number
      else if Lexeme.word d.rest != 0 then worded fuel d
      else astray fuel d

/-- A place where an operand ought to begin and does not. -/
def astray : Nat → Draft source → Draft source
  | 0, d => d.missing
  | fuel + 1, d =>
    if stopsHere d.rest || d.beginsWith "," then d.missing
    else operand fuel d.stray.space

/-- An operand that begins with a word. -/
def worded : Nat → Draft source → Draft source
  | 0, d => d.missing
  | fuel + 1, d =>
    match d.word with
    | "true" => d.wordToken .trueWord
    | "false" => d.wordToken .falseWord
    | "null" => d.wordToken .nullWord
    | "undefined" => d.wordToken .undefinedWord
    | "this" | "super" => d.wordToken .reserved
    | "function" => functionFrom fuel d.cursor d
    | "class" => d.enclose .other (classTail fuel)
    | "new" => newFrom fuel d
    | "import" =>
      let g := (d.wordToken .reserved).gap
      if g.beginsWith "(" || g.beginsWith "." then d.wordToken .reserved else d.missing.stray
    | "async" =>
      let g := (d.wordToken .punctuation).gap
      if g.word == "function" then functionFrom fuel d.cursor d
      else if g.beginsWith "(" then
        let e := arguments fuel (((fresh d.cursor).wordToken .name).gap)
        if e.gap.beginsWith "=>" then
          d.append ((arrowBody fuel ((e.retag (·.toParameters)).gap.sign 2).space).close
            .function d.cursor)
        else d.append (e.close .call d.cursor)
      else if (g.wordToken .name).gap.beginsWith "=>" && Lexeme.word g.rest != 0 then
        d.enclose .function fun b =>
          arrowBody fuel (((b.wordToken .punctuation).gap.wordToken .name).gap.sign 2).space
      else named fuel d
    | _ => named fuel d

def named : Nat → Draft source → Draft source
  | 0, d => d.missing
  | fuel + 1, d =>
    if (d.wordToken .name).gap.beginsWith "=>" then
      d.enclose .function fun b => arrowBody fuel ((b.wordToken .name).gap.sign 2).space
    else d.wordToken .name

def arrowBody : Nat → Draft source → Draft source
  | 0, d => d.missing
  | fuel + 1, d => if d.beginsWith "\x7b" then block fuel d else expression fuel d

/-- Parentheses around an expression, or around the parameters of an arrow function. -/
def parenthesized : Nat → Draft source → Draft source
  | 0, d => d.missing
  | fuel + 1, d =>
    let e := entries fuel .values ((fresh d.cursor).sign 1)
    if e.gap.beginsWith "=>" then
      let p := (e.close .parameters d.cursor).retag (·.toParameters)
      d.append ((arrowBody fuel (p.gap.sign 2).space).close .function d.cursor)
    else d.append (e.asParenthesized d.cursor)

/-- `new` with what it makes: a primary with members, and perhaps arguments. -/
def newFrom : Nat → Draft source → Draft source
  | 0, d => d.missing
  | fuel + 1, d =>
    let e := (fresh d.cursor).wordToken .punctuation
    if e.gap.beginsWith "." then
      d.append ((propertyAfter e.gap 1).close .other d.cursor)
    else
      let s := e.space
      let made := fresh s.cursor
      let made :=
        if s.word == "new" then newFrom fuel made
        else postfixTail fuel false s.cursor (primary fuel made)
      let e := s.append made
      let e := if e.gap.beginsWith "(" then arguments fuel e.gap else e
      d.append (e.close .construction d.cursor)

-- Lists in brackets

def arguments : Nat → Draft source → Draft source
  | 0, d => d.missing
  | fuel + 1, d => d.enclose .arguments fun b => entries fuel .values (b.sign 1)

/-- The entries of a list from one on, up to its closing bracket. -/
def entries : Nat → Listing → Draft source → Draft source
  | 0, _, d => d.missing
  | fuel + 1, l, d =>
    let s := d.space
    match s.rest with
    | [] => d.missing
    | c :: _ =>
      if c == l.closing then s.sign 1
      else if c == ',' then entries fuel l (s.sign 1)
      else if stopsHere s.rest then d.missing
      else entriesAfter fuel l (entry fuel l s)

def entriesAfter : Nat → Listing → Draft source → Draft source
  | 0, _, d => d.missing
  | fuel + 1, l, d =>
    let g := d.gap
    match g.rest with
    | [] => d.missing
    | c :: _ =>
      if c == l.closing then g.sign 1
      else if c == ',' then entries fuel l (g.sign 1)
      else if stopsHere g.rest then d.missing
      else entriesAfter fuel l (g.enclose .error (surplus fuel))

/-- Text after an entry where a comma ought to be. -/
def surplus : Nat → Draft source → Draft source
  | 0, d => d.missing
  | fuel + 1, d => if startsOperand d.rest then expression fuel d else d.stray

def entry : Nat → Listing → Draft source → Draft source
  | 0, _, d => d.missing
  | fuel + 1, l, d =>
    if d.beginsWith "..." then
      d.enclose .spread fun b => expression fuel (b.sign 3).space
    else
      match l with
      | .members => member fuel d
      | _ => expression fuel d

-- Objects and classes

def member : Nat → Draft source → Draft source
  | 0, d => d.missing
  | fuel + 1, d =>
    if d.beginsWith "*" then
      d.enclose .method fun b => methodTail fuel (propertyName fuel (b.sign 1).gap)
    else
      let g := (d.wordToken .punctuation).gap
      let modifier := ["async", "get", "set", "static"].contains d.word &&
        (startsProperty g.rest || g.beginsWith "*")
      if modifier then
        d.enclose .method fun b => methodTail fuel (modified fuel b)
      else if startsProperty d.rest then
        d.append (memberTail fuel d.cursor (propertyName fuel (fresh d.cursor)))
      else d.enclose .error (surplus fuel)

/-- The words before the name of a method, and the name. -/
def modified : Nat → Draft source → Draft source
  | 0, d => d.missing
  | fuel + 1, d =>
    if d.beginsWith "*" then propertyName fuel (d.sign 1).gap
    else
      let g := (d.wordToken .punctuation).gap
      if ["async", "get", "set", "static"].contains d.word &&
          (startsProperty g.rest || g.beginsWith "*") then
        modified fuel g
      else propertyName fuel d

def memberTail : Nat → Cursor source → Draft source → Draft source
  | 0, _, e => e.missing
  | fuel + 1, start, e =>
    let g := e.space
    match g.rest with
    | ':' :: _ => (expression fuel (g.sign 1).space).close .pair start
    | '(' :: _ => (methodTail fuel e).close .method start
    | _ =>
      match e.nodes with
      | [.leaf .propertyName m s] =>
        if Lexeme.assignment g.rest = 1 then
          (expression fuel ((e.retag fun _ => .leaf .shorthand m s).gap.sign 1).space).close
            .defaulted start
        else e.retag fun _ => .leaf .shorthand m s
      | _ => e.missing.close .pair start

def propertyName : Nat → Draft source → Draft source
  | 0, d => d.missing
  | fuel + 1, d =>
    match d.rest with
    | '\x22' :: _ => d.quoted '\x22'
    | '\x27' :: _ => d.quoted '\x27'
    | '[' :: _ => d.enclose .computedKey fun b => (expression fuel (b.sign 1).space).gap.expect "]"
    | '#' :: cs =>
      if Lexeme.word cs = 0 then d.missing else d.token .privateName (Lexeme.word cs + 1)
    | cs =>
      if Lexeme.number cs != 0 then d.number
      else if Lexeme.word cs != 0 then d.wordToken .propertyName
      else d.missing

def methodTail : Nat → Draft source → Draft source
  | 0, d => d.missing
  | fuel + 1, d =>
    let g := d.gap
    if g.beginsWith "(" then
      let p := (g.enclose .parameters fun b => entries fuel .values (b.sign 1)).retag
        (·.toParameters)
      if p.gap.beginsWith "\x7b" then block fuel p.gap else p.missing
    else d.missing

/-- A function from the words `function` or `async function` on. One that yields is no plain
function. -/
def functionFrom : Nat → Cursor source → Draft source → Draft source
  | 0, _, d => d.missing
  | fuel + 1, start, d =>
    let e := fresh start
    let e := if e.word == "async" then (e.wordToken .punctuation).gap else e
    let e := e.wordToken .punctuation
    let g := e.gap
    let yields := g.beginsWith "*"
    let e := if yields then g.sign 1 else e
    let e := if Lexeme.word e.gap.rest = 0 then e else e.gap.wordToken .name
    d.append ((methodTail fuel e).close (if yields then .other else .function) start)

def classTail : Nat → Draft source → Draft source
  | 0, d => d.missing
  | fuel + 1, d =>
    if d.word == "class" then
      let d := d.wordToken .punctuation
      let d := if Lexeme.word d.gap.rest = 0 || d.gap.word == "extends" then d
        else d.gap.wordToken .name
      let d := if d.gap.word == "extends" then
          expression fuel (d.gap.wordToken .punctuation).space
        else d
      if d.gap.beginsWith "\x7b" then
        d.gap.enclose .classBody fun b => classMembers fuel (b.sign 1)
      else d.missing
    else d.missing

def classMembers : Nat → Draft source → Draft source
  | 0, d => d.missing
  | fuel + 1, d =>
    let s := d.space
    match s.rest with
    | [] => d.missing
    | '\x7d' :: _ => s.sign 1
    | ';' :: _ => classMembers fuel (s.sign 1)
    | '@' :: _ => classMembers fuel (decorators fuel s)
    | cs =>
      if s.word == "static" && (s.wordToken .punctuation).gap.beginsWith "\x7b" then
        classMembers fuel (block fuel (s.wordToken .punctuation).gap)
      else if startsProperty cs || s.beginsWith "*" then
        classMembers fuel (classMember fuel s)
      else classMembers fuel s.stray

def classMember : Nat → Draft source → Draft source
  | 0, d => d.missing
  | fuel + 1, d =>
    let e := modified fuel (fresh d.cursor)
    if e.gap.beginsWith "(" then d.append ((methodTail fuel e).close .method d.cursor)
    else
      let e := if Lexeme.assignment e.gap.rest = 1 then
          expression fuel (e.gap.sign 1).space
        else e
      let (ended, e) := e.semicolon
      d.append (e.close (if ended then .other else .error) d.cursor)

def decorators : Nat → Draft source → Draft source
  | 0, d => d.missing
  | fuel + 1, d =>
    if d.beginsWith "@" then
      let d := d.enclose .other fun b =>
        let b := b.sign 1
        let e := fresh b.cursor
        b.append (postfixTail fuel true b.cursor
          (if e.beginsWith "(" then parenthesized fuel e else e.wordToken .name))
      decorators fuel d.space
    else d

-- Templates and markup

def template : Nat → Draft source → Draft source
  | 0, d => d.missing
  | fuel + 1, d => d.enclose .template fun b => templateTail fuel (b.sign 1)

def templateTail : Nat → Draft source → Draft source
  | 0, d => d.missing
  | fuel + 1, d =>
    let n := Lexeme.templateFragment d.rest
    let d := if n = 0 then d else d.token .fragment n
    match d.rest with
    | [] => d.missing
    | '\x60' :: _ => d.sign 1
    | '\\' :: _ =>
      let m := Lexeme.escape d.rest
      templateTail fuel (if m = 0 then d.stray else d.token .escape m)
    | _ =>
      templateTail fuel (d.enclose .substitution fun b =>
        (expressions fuel (b.sign 2).space).gap.expect "\x7d")

def element : Nat → Draft source → Draft source
  | 0, d => d.missing
  | fuel + 1, d =>
    d.enclose .markup fun b => attributes fuel (b.sign 1).gap.tagName

def attributes : Nat → Draft source → Draft source
  | 0, d => d.missing
  | fuel + 1, d =>
    let g := d.gap
    match g.rest with
    | [] => d.missing
    | '/' :: '>' :: _ => g.sign 2
    | '>' :: _ => content fuel (g.sign 1)
    | '\x7b' :: _ => attributes fuel (braced fuel g)
    | c :: _ =>
      if Lexeme.isWordPart c then
        let a := g.tagName
        if a.gap.beginsWith "=" then attributes fuel (attributeValue fuel (a.gap.sign 1).gap)
        else attributes fuel a
      else attributes fuel g.stray

def attributeValue : Nat → Draft source → Draft source
  | 0, d => d.missing
  | fuel + 1, d =>
    match d.rest with
    | '\x7b' :: _ => braced fuel d
    | '<' :: _ => element fuel d
    | c :: cs =>
      if c == '\x22' || c == '\x27' then
        let n := (cs.takeWhile (· != c)).length
        if n = cs.length then d.missing.token .error 1 else d.token .fragment (n + 2)
      else d.missing
    | [] => d.missing

def braced : Nat → Draft source → Draft source
  | 0, d => d.missing
  | fuel + 1, d =>
    d.enclose .other fun b =>
      let b := (b.sign 1).space
      let b :=
        if b.beginsWith "\x7d" then b
        else if b.beginsWith "..." then expression fuel (b.sign 3).space
        else expressions fuel b
      b.gap.expect "\x7d"

/-- What stands between the tags of an element, and the closing tag. -/
def content : Nat → Draft source → Draft source
  | 0, d => d.missing
  | fuel + 1, d =>
    let n := (d.rest.takeWhile fun c => !("<>\x7b\x7d".toList.contains c)).length
    let d := if n = 0 then d else d.token .fragment n
    match d.rest with
    | [] => d.missing
    | '\x7b' :: _ => content fuel (braced fuel d)
    | '<' :: '/' :: _ => (d.sign 2).gap.tagName.gap.expect ">"
    | '<' :: _ => content fuel (element fuel d)
    | _ => content fuel d.stray

-- Statements

def block : Nat → Draft source → Draft source
  | 0, d => d.missing
  | fuel + 1, d =>
    if d.beginsWith "\x7b" then
      d.enclose .statement fun b => statementsTail fuel (b.sign 1)
    else d.missing

def statementsTail : Nat → Draft source → Draft source
  | 0, d => d.missing
  | fuel + 1, d =>
    let s := d.space
    match s.rest with
    | [] => d.missing
    | '\x7d' :: _ => s.sign 1
    | _ => statementsTail fuel (statement fuel s)

/-- Statements of a branch of a choice, up to the next branch. -/
def branchStatements : Nat → Draft source → Draft source
  | 0, d => d.missing
  | fuel + 1, d =>
    let s := d.space
    match s.rest with
    | [] => d
    | '\x7d' :: _ => d
    | _ =>
      if s.word == "case" || s.word == "default" then d
      else branchStatements fuel (statement fuel s)

def branches : Nat → Draft source → Draft source
  | 0, d => d.missing
  | fuel + 1, d =>
    let s := d.space
    match s.rest with
    | [] => d.missing
    | '\x7d' :: _ => s.sign 1
    | _ =>
      match s.word with
      | "case" =>
        branches fuel (s.enclose .statement fun b =>
          branchStatements fuel
            ((expressions fuel (b.wordToken .punctuation).space).gap.expect ":"))
      | "default" =>
        branches fuel (s.enclose .statement fun b =>
          branchStatements fuel ((b.wordToken .punctuation).gap.expect ":"))
      | _ => branches fuel s.stray

def condition : Nat → Draft source → Draft source
  | 0, d => d.missing
  | fuel + 1, d =>
    if d.gap.beginsWith "(" then parenthesized fuel d.gap else d.missing

def declarations : Nat → Draft source → Draft source
  | 0, d => d.missing
  | fuel + 1, d =>
    let d := (expression fuel d.space).retag (·.toPattern)
    if d.gap.beginsWith "," then declarations fuel (d.gap.sign 1) else d

/-- The part of a loop between its parentheses. -/
def loopHead : Nat → Draft source → Draft source
  | 0, d => d.missing
  | fuel + 1, d =>
    let s := d.space
    let first :=
      if s.beginsWith ";" then s
      else if ["var", "let", "const"].contains s.word then
        let e := expression fuel (s.wordToken .punctuation).space
        if e.gap.beginsWith "," then declarations fuel ((e.retag (·.toPattern)).gap.sign 1)
        else
          match e.nodes with
          | .branch .binary _ _ _ :: _ => e
          | _ => e.retag (·.toPattern)
      else expressions fuel s
    let g := first.gap
    if g.beginsWith ";" then
      let c := (g.sign 1).space
      let c := if c.beginsWith ";" then c else expressions fuel c
      let c := (c.gap.expect ";").space
      if c.beginsWith ")" then c else expressions fuel c
    else if g.word == "of" || g.word == "in" then
      expressions fuel (g.wordToken .punctuation).space
    else first

/-- The rest of an import or of an export of names: names, braces and stars, up to the end of
the statement. -/
def clause : Nat → Draft source → Draft source
  | 0, d => d.missing
  | fuel + 1, d =>
    let g := d.gap
    match g.rest with
    | '\x7b' :: _ =>
      let e := (fresh g.cursor).sign 1
      clause fuel (g.append ((clauseNames fuel e).close .other g.cursor))
    | '*' :: _ => clause fuel (g.sign 1)
    | ',' :: _ => clause fuel (g.sign 1)
    | '\x22' :: _ => clause fuel (g.quoted '\x22')
    | '\x27' :: _ => clause fuel (g.quoted '\x27')
    | cs =>
      if Lexeme.word cs = 0 || d.endsHere then d else clause fuel (g.wordToken .reserved)

/-- Names in the braces of an import or export. -/
def clauseNames : Nat → Draft source → Draft source
  | 0, d => d.missing
  | fuel + 1, d =>
    let g := d.gap
    match g.rest with
    | [] => d.missing
    | '\x7d' :: _ => g.sign 1
    | ',' :: _ => clauseNames fuel (g.sign 1)
    | ':' :: _ => clauseNames fuel (g.sign 1)
    | '\x22' :: _ => clauseNames fuel (g.quoted '\x22')
    | '\x27' :: _ => clauseNames fuel (g.quoted '\x27')
    | cs =>
      if Lexeme.word cs != 0 then clauseNames fuel (g.wordToken .name)
      else if stopsHere cs then d.missing
      else clauseNames fuel g.stray

def statement : Nat → Draft source → Draft source
  | 0, d => d.missing
  | fuel + 1, d =>
    match d.rest with
    | '\x7b' :: _ => block fuel d
    | ';' :: _ => d.enclose .statement (·.sign 1)
    | '@' :: _ =>
      d.enclose .statement fun b => statement fuel (decorators fuel b)
    | _ =>
      let head := fun b : Draft source => b.wordToken .punctuation
      match d.word with
      | "if" =>
        d.enclose .statement fun b =>
          let b := statement fuel (condition fuel (head b)).space
          if b.gap.word == "else" then statement fuel (head b.gap).space else b
      | "for" =>
        d.enclose .statement fun b =>
          let b := head b
          let b := if b.gap.word == "await" then head b.gap else b
          let b := (loopHead fuel (b.gap.expect "(")).gap.expect ")"
          statement fuel b.space
      | "while" | "with" =>
        d.enclose .statement fun b => statement fuel (condition fuel (head b)).space
      | "do" =>
        d.enclose .statement fun b =>
          let b := statement fuel (head b).space
          let b := if b.gap.word == "while" then condition fuel (head b.gap) else b.missing
          if b.gap.beginsWith ";" then b.gap.sign 1 else b
      | "switch" =>
        d.enclose .statement fun b =>
          let b := condition fuel (head b)
          if b.gap.beginsWith "\x7b" then branches fuel (b.gap.sign 1) else b.missing
      | "try" =>
        d.enclose .statement fun b =>
          let b := block fuel (head b).gap
          let b :=
            if b.gap.word == "catch" then
              let b := head b.gap
              let b := if b.gap.beginsWith "(" then
                  (b.gap.enclose .parameters fun p => entries fuel .values (p.sign 1)).retag
                    (·.toParameters)
                else b
              block fuel b.gap
            else b
          if b.gap.word == "finally" then block fuel (head b.gap).gap else b
      | "break" | "continue" =>
        d.sentence .statement fun b =>
          let b := head b
          if b.endsHere || Lexeme.word b.gap.rest = 0 then b else b.gap.wordToken .reserved
      | "return" =>
        d.sentence .statement fun b =>
          let b := head b
          if b.endsHere || b.gap.beginsWith ";" then b else expressions fuel b.space
      | "throw" => d.sentence .statement fun b => expressions fuel (head b).space
      | "debugger" => d.sentence .statement head
      | "var" | "const" => d.sentence .statement fun b => declarations fuel (head b)
      | "let" =>
        let g := (head d).gap
        if g.beginsWith "[" || g.beginsWith "\x7b" ||
            (Lexeme.word g.rest != 0 && !wordOperator g.rest) then
          d.sentence .statement fun b => declarations fuel (head b)
        else plain fuel d
      | "function" => (functionFrom fuel d.cursor d).retag (·.toStatement)
      | "async" =>
        if (head d).gap.word == "function" then
          (functionFrom fuel d.cursor d).retag (·.toStatement)
        else plain fuel d
      | "class" => d.enclose .statement (classTail fuel)
      | "import" =>
        let g := (head d).gap
        if g.beginsWith "(" || g.beginsWith "." then plain fuel d
        else d.sentence .statement fun b => clause fuel (head b)
      | "export" =>
        let g := (head d).gap
        if g.beginsWith "\x7b" || g.beginsWith "*" then
          d.sentence .statement fun b => clause fuel (head b)
        else if g.word == "default" then
          d.enclose .statement fun b => exported fuel (head (head b).gap).space
        else if ["function", "async", "class", "var", "let", "const"].contains g.word ||
            g.beginsWith "@" then
          d.enclose .statement fun b => statement fuel (head b).space
        else plain fuel d
      | _ => plain fuel d

/-- What follows `export default`. -/
def exported : Nat → Draft source → Draft source
  | 0, d => d.missing
  | fuel + 1, d =>
    let g := (d.wordToken .punctuation).gap
    if ["function", "class"].contains d.word || (d.word == "async" && g.word == "function") ||
        d.beginsWith "@" then
      statement fuel d
    else d.sentence .statement (expression fuel)

/-- A statement that begins with no word of its own: a labelled one or an expression. -/
def plain : Nat → Draft source → Draft source
  | 0, d => d.missing
  | fuel + 1, d =>
    if Lexeme.word d.rest != 0 && (d.wordToken .reserved).gap.beginsWith ":" then
      d.enclose .statement fun b =>
        statement fuel ((b.wordToken .reserved).gap.sign 1).space
    else if startsOperand d.rest then d.sentence .expressionStatement (expressions fuel)
    else d.stray

end

def programTail : Nat → Nat → Draft source → Draft source
  | 0, _, d => d.missing
  | steps + 1, fuel, d =>
    let s := d.space
    match s.rest with
    | [] => s
    | _ => programTail steps fuel (statement fuel s)

end Draft

def parse (source : List Char) : Node source :=
  let d := Draft.fresh (Cursor.start source)
  let d := if d.beginsWith "#!" then
      d.token .other (d.rest.takeWhile (· != '\n')).length
    else d
  let d := Draft.programTail (source.length + 1) (16 * source.length + 64) d
  .branch .program (Cursor.start source).mark d.cursor.mark d.nodes.reverse

end Workyard.Script
