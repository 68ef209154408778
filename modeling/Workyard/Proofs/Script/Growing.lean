import Workyard.Proofs.Script.Growth

/-!
# Every draft is grown

Each function of the grammar makes its draft in the ways in which drafts grow. Below a bound on the
depth this is assumed of all of them at once, and shown for each one above it.
-/

namespace Workyard.Script

set_option autoImplicit false

open Node Draft

/-- What goes on from a draft, wherever that was begun. -/
def Growing (source : List Char) (f : Draft source → Draft source) : Prop :=
  ∀ {c d}, Grown c d → Grown c (f d)

/-- What goes on from a draft that was begun at the given place. -/
def GrowingFrom (source : List Char) (f : Text.Cursor source → Draft source → Draft source) :
    Prop :=
  ∀ {c d}, Grown c d → Grown c (f c d)

/-- The functions of the grammar at a bound on the depth. -/
structure Grows (source : List Char) (fuel : Nat) : Prop where
  expressions : Growing source (expressions fuel)
  expressionsTail : GrowingFrom source (expressionsTail fuel)
  expression : Growing source (expression fuel)
  binaryTail : GrowingFrom source (binaryTail fuel)
  operand : Growing source (operand fuel)
  yielded : Growing source (yielded fuel)
  postfixed : Growing source (postfixed fuel)
  postfixTail : ∀ calls, ∀ {c} {e : Draft source}, Grown c e → Nodes One e.nodes →
    Grown c (postfixTail fuel calls c e)
  subscript : Growing source (subscript fuel)
  assigned : GrowingFrom source (assigned fuel)
  primary : Growing source (primary fuel)
  astray : Growing source (astray fuel)
  worded : Growing source (worded fuel)
  named : Growing source (named fuel)
  arrowBody : Growing source (arrowBody fuel)
  parenthesized : Growing source (parenthesized fuel)
  newFrom : Growing source (newFrom fuel)
  arguments : Growing source (arguments fuel)
  entries : ∀ l, Growing source (entries fuel l)
  entriesAfter : ∀ l, Growing source (entriesAfter fuel l)
  surplus : Growing source (surplus fuel)
  entry : ∀ l, Growing source (entry fuel l)
  member : Growing source (member fuel)
  modified : Growing source (modified fuel)
  memberTail : GrowingFrom source (memberTail fuel)
  propertyName : Growing source (propertyName fuel)
  methodTail : Growing source (methodTail fuel)
  functionFrom : Growing source fun d => functionFrom fuel d.cursor d
  classTail : Growing source (classTail fuel)
  classMembers : Growing source (classMembers fuel)
  classMember : Growing source (classMember fuel)
  decorators : Growing source (decorators fuel)
  template : Growing source (template fuel)
  templateTail : Growing source (templateTail fuel)
  element : Growing source (element fuel)
  attributes : Growing source (attributes fuel)
  attributeValue : Growing source (attributeValue fuel)
  braced : Growing source (braced fuel)
  content : Growing source (content fuel)
  block : Growing source (block fuel)
  statementsTail : Growing source (statementsTail fuel)
  branchStatements : Growing source (branchStatements fuel)
  branches : Growing source (branches fuel)
  condition : Growing source (condition fuel)
  declarations : Growing source (declarations fuel)
  loopHead : Growing source (loopHead fuel)
  clause : Growing source (clause fuel)
  clauseNames : Growing source (clauseNames fuel)
  statement : Growing source (statement fuel)
  exported : Growing source (exported fuel)
  plain : Growing source (plain fuel)

variable {source : List Char} {fuel : Nat}

theorem grows_zero : Grows source 0 := by
  constructor <;>
    first
    | intro c d hd; exact hd.missing
    | intro l c d hd; exact hd.missing
    | intro calls c e he _; exact he.missing

theorem head_close {k : Kind} (hk : k ≠ .call) (c : Text.Cursor source) (e : Draft source) :
    ∀ n ∈ (e.close k c).nodes.head?, n.kind ≠ .call := by
  rintro n ⟨⟩
  exact hk

theorem head_arguments (fuel : Nat) (d : Draft source) :
    ∀ n ∈ (arguments fuel d).nodes.head?, n.kind ≠ .call := by
  cases fuel with
  | zero =>
    rintro n ⟨⟩
    exact fun heq => nomatch heq
  | succ fuel =>
    rintro n ⟨⟩
    exact fun heq => nomatch heq

section Steps

variable (h : Grows source fuel)
include h

/-! ### Expressions -/

theorem growing_expressions : Growing source (expressions (fuel + 1)) := by
  intro c d hd
  rw [expressions]
  exact hd.append (h.expressionsTail (h.expression (.fresh _)))

theorem growing_expressionsTail : GrowingFrom source (expressionsTail (fuel + 1)) := by
  intro c e he
  rw [expressionsTail]
  split
  · exact h.expressionsTail ((h.expression (he.gap.sign 1).space).close rfl)
  · exact he

theorem growing_expression : Growing source (expression (fuel + 1)) := by
  intro c d hd
  have hchain := h.binaryTail (h.operand (.fresh d.cursor))
  rw [expression]
  split
  · have hthen := h.expression (hchain.gap.sign 1).space
    exact hd.append ((h.expression (hthen.gap.expect ":").space).close rfl)
  · exact hd.append hchain

theorem growing_binaryTail : GrowingFrom source (binaryTail (fuel + 1)) := by
  intro c e he
  rw [binaryTail]
  split
  · exact he
  · exact h.binaryTail ((h.operand (he.gap.sign _).space).close rfl)

theorem growing_operand : Growing source (operand (fuel + 1)) := by
  intro c d hd
  have hsigned : ∀ k n, k.isGroup = true →
      Grown c (d.enclose k fun b => operand fuel (b.sign n).space) :=
    fun k n hk => hd.enclose hk (h.operand ((Grown.fresh _).sign n).space)
  have hworded : ∀ k, k.isGroup = true →
      Grown c (d.enclose k fun b => operand fuel (b.wordToken .punctuation).space) :=
    fun k hk => hd.enclose hk (h.operand ((Grown.fresh _).wordToken rfl).space)
  rw [operand]
  split
  · exact hsigned _ 2 rfl
  split
  · exact hsigned _ 1 rfl
  split
  · exact hworded _ rfl
  · exact hworded _ rfl
  · exact hworded _ rfl
  · exact hworded _ rfl
  · exact hd.enclose rfl (h.yielded ((Grown.fresh _).wordToken rfl))
  · exact h.postfixed hd

theorem growing_yielded : Growing source (yielded (fuel + 1)) := by
  intro c d hd
  rw [yielded]
  split
  · exact h.expression (hd.gap.sign 1).space
  · split
    · exact h.expression hd.space
    · exact hd

theorem growing_postfixed : Growing source (postfixed (fuel + 1)) := by
  intro c d hd
  rw [postfixed]
  have hprimary := ((reads fuel).primary (.fresh d.cursor)).nodes
  exact hd.append (h.assigned (h.postfixTail true (h.primary (.fresh _)) hprimary))

theorem growing_postfixTail (calls : Bool) {c : Text.Cursor source} {e : Draft source}
    (he : Grown c e) (hone : Nodes One e.nodes) : Grown c (postfixTail (fuel + 1) calls c e) := by
  have hgoes : ∀ k, k.isGroup = true → k.isOpaque = true → ∀ {f}, Grown c f →
      Grown c (postfixTail fuel calls c (f.close k c)) :=
    fun k hk hopaque _ hf => h.postfixTail calls (hf.close hk) (nodes_close_hidden hopaque c _)
  have hcall : ∀ {g f}, Adds Fillers e g → Adds OneOperands g f → Grown c f →
      Grown c (postfixTail fuel calls c (f.close .call c)) :=
    fun hg hf hgrown => h.postfixTail calls (hgrown.call (nodes_called hone hg hf))
      (nodes_close_hidden rfl c _)
  have hfillers := adds_gap_fillers e
  rw [postfixTail]
  simp only
  split
  · split
    · exact hcall hfillers (adds_arguments _ _) (h.arguments he.gap)
    · exact he
  · exact hcall hfillers (adds_template_operands _ _) (h.template he.gap)
  · exact hgoes _ rfl rfl (h.subscript he.gap)
  · exact hgoes _ rfl rfl (he.gap.propertyAfter 1)
  · split
    · exact he
    · have hsign := (he.gap.sign 2).gap
      split
      · exact hcall (adds_optional e) (adds_arguments _ _) (h.arguments hsign)
      · exact hgoes _ rfl rfl (h.subscript hsign)
      · exact hgoes _ rfl rfl (hsign.propertyAfter 0)
  · split
    · exact hgoes _ rfl rfl (he.gap.sign 2)
    · exact he
  · split
    · exact hgoes _ rfl rfl (he.gap.sign 2)
    · exact he
  · exact he

theorem growing_subscript : Growing source (subscript (fuel + 1)) := by
  intro c d hd
  rw [subscript]
  exact (h.expressions (hd.sign 1).space).gap.expect "]"

theorem growing_assigned : GrowingFrom source (assigned (fuel + 1)) := by
  intro c e he
  rw [assigned]
  split
  · split
    · exact (h.expression (he.toPattern.gap.sign 1).space).close rfl
    · split
      · exact (h.expression (he.gap.sign _).space).close rfl
      · exact he
  · exact he

theorem growing_primary : Growing source (primary (fuel + 1)) := by
  intro c d hd
  have hlisted : ∀ k l, k.isGroup = true →
      Grown c (d.enclose k fun b => entries fuel l (b.sign 1)) :=
    fun k l hk => hd.enclose hk (h.entries l ((Grown.fresh _).sign 1))
  rw [primary]
  split
  · exact h.parenthesized hd
  · exact hlisted _ _ rfl
  · exact hlisted _ _ rfl
  · exact hd.quoted _
  · exact hd.quoted _
  · exact h.template hd
  · exact h.element hd
  · simp only
    split
    · exact hd.token rfl
    · exact hd.token rfl
  · split
    · exact h.astray hd
    · split
      · exact hd.token rfl
      · exact hd.token rfl
  · exact hd.enclose rfl (h.classTail (h.decorators (.fresh _)))
  · split
    · exact hd.number
    · split
      · exact h.worded hd
      · exact h.astray hd

theorem growing_astray : Growing source (astray (fuel + 1)) := by
  intro c d hd
  rw [astray]
  split
  · exact hd.missing
  · exact h.operand hd.stray.space

theorem growing_worded : Growing source (worded (fuel + 1)) := by
  intro c d hd
  rw [worded]
  split
  · exact hd.wordToken rfl
  · exact hd.wordToken rfl
  · exact hd.wordToken rfl
  · exact hd.wordToken rfl
  · exact hd.wordToken rfl
  · exact hd.wordToken rfl
  · exact h.functionFrom hd
  · exact hd.enclose rfl (h.classTail (.fresh _))
  · exact h.newFrom hd
  · simp only
    split
    · exact hd.wordToken rfl
    · exact hd.missing.stray
  · simp only
    split
    · exact h.functionFrom hd
    · split
      · -- The word is a callee, unless an arrow makes its arguments parameters.
        have hword : Grown d.cursor ((fresh d.cursor).wordToken .name) :=
          (Grown.fresh _).wordToken rfl
        have hlist := h.arguments hword.gap
        split
        · have hparameters := hlist.toParameters (head_arguments _ _)
          exact hd.append ((h.arrowBody (hparameters.gap.sign 2).space).close rfl)
        · refine hd.append (hlist.call (nodes_called ?_ (adds_gap_fillers _) (adds_arguments _ _)))
          exact (adds_one_token rfl rfl _ _).nodes
      · split
        · exact hd.enclose rfl (h.arrowBody
            ((((Grown.fresh _).wordToken rfl).gap.wordToken rfl).gap.sign 2).space)
        · exact h.named hd
  · exact h.named hd

theorem growing_named : Growing source (named (fuel + 1)) := by
  intro c d hd
  rw [named]
  split
  · exact hd.enclose rfl (h.arrowBody (((Grown.fresh _).wordToken rfl).gap.sign 2).space)
  · exact hd.wordToken rfl

theorem growing_arrowBody : Growing source (arrowBody (fuel + 1)) := by
  intro c d hd
  rw [arrowBody]
  split
  · exact h.block hd
  · exact h.expression hd

theorem growing_parenthesized : Growing source (parenthesized (fuel + 1)) := by
  intro c d hd
  have hlist := h.entries .values ((Grown.fresh d.cursor).sign 1)
  rw [parenthesized]
  split
  · have hparameters : Grown d.cursor _ := (hlist.close (k := .parameters) rfl).toParameters
      (head_close (by decide) _ _)
    exact hd.append ((h.arrowBody (hparameters.gap.sign 2).space).close rfl)
  · exact hd.append hlist.parentheses

theorem growing_newFrom : Growing source (newFrom (fuel + 1)) := by
  intro c d hd
  have hword : Grown d.cursor ((fresh d.cursor).wordToken .punctuation) :=
    (Grown.fresh _).wordToken rfl
  rw [newFrom]
  simp only
  split
  · exact hd.append ((hword.gap.propertyAfter 1).close rfl)
  · generalize (fresh d.cursor).wordToken .punctuation = e at hword ⊢
    generalize hs : e.space = s
    have hspace : Grown d.cursor s := hs ▸ hword.space
    have hmade : Grown s.cursor (if s.word == "new" then newFrom fuel (fresh s.cursor)
        else postfixTail fuel false s.cursor (primary fuel (fresh s.cursor))) := by
      split
      · exact h.newFrom (.fresh _)
      · exact h.postfixTail false (h.primary (.fresh _)) ((reads fuel).primary _).nodes
    generalize (if s.word == "new" then newFrom fuel (fresh s.cursor)
      else postfixTail fuel false s.cursor (primary fuel (fresh s.cursor))) = made at hmade ⊢
    have hnew := hspace.append hmade
    refine hd.append (Grown.close ?_ rfl)
    split
    · exact h.arguments hnew.gap
    · exact hnew

/-! ### Lists in brackets -/

theorem growing_arguments : Growing source (arguments (fuel + 1)) := by
  intro c d hd
  rw [arguments]
  exact hd.enclose rfl (h.entries .values ((Grown.fresh _).sign 1))

theorem growing_entries (l : Listing) : Growing source (entries (fuel + 1) l) := by
  intro c d hd
  rw [entries]
  split
  · exact hd.missing
  · split
    · exact hd.space.sign 1
    · split
      · exact h.entries l (hd.space.sign 1)
      · split
        · exact hd.missing
        · exact h.entriesAfter l (h.entry l hd.space)

theorem growing_entriesAfter (l : Listing) : Growing source (entriesAfter (fuel + 1) l) := by
  intro c d hd
  rw [entriesAfter]
  split
  · exact hd.missing
  · split
    · exact hd.gap.sign 1
    · split
      · exact h.entries l (hd.gap.sign 1)
      · split
        · exact hd.missing
        · exact h.entriesAfter l (hd.gap.enclose rfl (h.surplus (.fresh _)))

theorem growing_surplus : Growing source (surplus (fuel + 1)) := by
  intro c d hd
  rw [surplus]
  split
  · exact h.expression hd
  · exact hd.stray

theorem growing_entry (l : Listing) : Growing source (entry (fuel + 1) l) := by
  intro c d hd
  unfold entry
  split
  · exact hd.enclose rfl (h.expression ((Grown.fresh _).sign 3).space)
  · split
    · exact h.member hd
    · exact h.expression hd

/-! ### Objects and classes -/

theorem growing_member : Growing source (member (fuel + 1)) := by
  intro c d hd
  rw [member]
  split
  · exact hd.enclose rfl (h.methodTail (h.propertyName ((Grown.fresh _).sign 1).gap))
  · simp only
    split
    · exact hd.enclose rfl (h.methodTail (h.modified (.fresh _)))
    · split
      · exact hd.append (h.memberTail (h.propertyName (.fresh _)))
      · exact hd.enclose rfl (h.surplus (.fresh _))

theorem growing_modified : Growing source (modified (fuel + 1)) := by
  intro c d hd
  rw [modified]
  split
  · exact h.propertyName (hd.sign 1).gap
  · simp only
    split
    · exact h.modified (hd.wordToken rfl).gap
    · exact h.propertyName hd

theorem growing_memberTail : GrowingFrom source (memberTail (fuel + 1)) := by
  intro c e he
  unfold memberTail
  simp only
  split
  · exact (h.expression (he.space.sign 1).space).close rfl
  · exact (h.methodTail he).close rfl
  · split
    · rename_i hkey
      split
      · exact (h.expression ((he.shorthand hkey).gap.sign 1).space).close rfl
      · exact he.shorthand hkey
    · exact he.missing.close rfl

theorem growing_propertyName : Growing source (propertyName (fuel + 1)) := by
  intro c d hd
  rw [propertyName]
  split
  · exact hd.quoted _
  · exact hd.quoted _
  · exact hd.enclose rfl ((h.expression ((Grown.fresh _).sign 1).space).gap.expect "]")
  · exact hd.privateName
  · split
    · exact hd.number
    · split
      · exact hd.wordToken rfl
      · exact hd.missing

/-- A list in parentheses that is taken as parameters. -/
theorem growing_parameters : Growing source fun d =>
    (d.enclose .parameters fun b => entries fuel .values (b.sign 1)).retag (·.toParameters) := by
  intro c d hd
  have hlist : Grown c (d.enclose .parameters fun b => entries fuel .values (b.sign 1)) :=
    hd.enclose rfl (h.entries .values ((Grown.fresh _).sign 1))
  exact hlist.toParameters (head_close (by decide) _ _)

theorem growing_methodTail : Growing source (methodTail (fuel + 1)) := by
  intro c d hd
  have hparameters := growing_parameters h hd.gap
  rw [methodTail]
  exact .ite (.ite (h.block hparameters.gap) hparameters.missing) hd.missing

theorem growing_functionFrom : Growing source fun d => functionFrom (fuel + 1) d.cursor d := by
  intro c d hd
  have hasync : Grown d.cursor (if (fresh d.cursor).word == "async" then
      ((fresh d.cursor).wordToken .punctuation).gap else fresh d.cursor) :=
    .ite ((Grown.fresh _).wordToken rfl).gap (.fresh _)
  have hstar : ∀ {e : Draft source}, Grown d.cursor e →
      Grown d.cursor (if e.gap.beginsWith "*" then e.gap.sign 1 else e) :=
    fun he => .ite (he.gap.sign 1) he
  have hname : ∀ {e : Draft source}, Grown d.cursor e → Grown d.cursor
      (if Lexeme.word e.gap.rest = 0 then e else e.gap.wordToken .name) :=
    fun he => .ite he (he.gap.wordToken rfl)
  have hkind : ∀ yields : Bool, (if yields then Kind.other else .function).isGroup = true := by
    decide
  exact hd.append ((h.methodTail (hname (hstar (hasync.wordToken rfl)))).close (hkind _))

theorem growing_classTail : Growing source (classTail (fuel + 1)) := by
  intro c d hd
  have hname : ∀ {e : Draft source}, Grown c e → Grown c
      (if Lexeme.word e.gap.rest = 0 || e.gap.word == "extends" then e
        else e.gap.wordToken .name) :=
    fun he => .ite he (he.gap.wordToken rfl)
  have hextends : ∀ {e : Draft source}, Grown c e → Grown c
      (if e.gap.word == "extends" then expression fuel (e.gap.wordToken .punctuation).space
        else e) :=
    fun he => .ite (h.expression (he.gap.wordToken rfl).space) he
  rw [classTail]
  split
  · have hhead := hextends (hname (hd.wordToken (k := .punctuation) rfl))
    exact .ite (hhead.gap.enclose rfl (h.classMembers ((Grown.fresh _).sign 1))) hhead.missing
  · exact hd.missing

theorem growing_classMembers : Growing source (classMembers (fuel + 1)) := by
  intro c d hd
  rw [classMembers]
  split
  · exact hd.missing
  · exact hd.space.sign 1
  · exact h.classMembers (hd.space.sign 1)
  · exact h.classMembers (h.decorators hd.space)
  · split
    · exact h.classMembers (h.block (hd.space.wordToken rfl).gap)
    · split
      · exact h.classMembers (h.classMember hd.space)
      · exact h.classMembers hd.space.stray

theorem growing_classMember : Growing source (classMember (fuel + 1)) := by
  intro c d hd
  have hname := h.modified (.fresh d.cursor)
  rw [classMember]
  simp only
  split
  · exact hd.append ((h.methodTail hname).close rfl)
  · have hvalue : ∀ {e : Draft source}, Grown d.cursor e → Grown d.cursor
        (if Lexeme.assignment e.gap.rest = 1 then expression fuel (e.gap.sign 1).space else e) :=
      fun he => .ite (h.expression (he.gap.sign 1).space) he
    have hkind : ∀ ended : Bool, (if ended then Kind.other else .error).isGroup = true := by decide
    exact hd.append ((hvalue hname).semicolon.close (hkind _))

theorem growing_decorators : Growing source (decorators (fuel + 1)) := by
  intro c d hd
  rw [decorators]
  split
  · refine h.decorators (Grown.space (hd.enclose rfl ?_))
    have hsign := (Grown.fresh d.cursor).sign 1
    refine hsign.append (h.postfixTail true (.ite (h.parenthesized (.fresh _))
      ((Grown.fresh _).wordToken rfl)) ?_)
    split
    · exact ((reads fuel).parenthesized _).nodes
    · exact (adds_one_token rfl rfl _ _).nodes
  · exact hd

/-! ### Templates and markup -/

theorem growing_template : Growing source (template (fuel + 1)) := by
  intro c d hd
  rw [template]
  exact hd.enclose rfl (h.templateTail ((Grown.fresh _).sign 1))

theorem growing_templateTail : Growing source (templateTail (fuel + 1)) := by
  intro c d hd
  have hfragment : Grown c (if Lexeme.templateFragment d.rest = 0 then d else
      d.token .fragment (Lexeme.templateFragment d.rest)) := hd.some_token rfl
  rw [templateTail]
  generalize (if Lexeme.templateFragment d.rest = 0 then d else
    d.token .fragment (Lexeme.templateFragment d.rest)) = e at hfragment ⊢
  simp only
  split
  · exact hfragment.missing
  · exact hfragment.sign 1
  · exact h.templateTail hfragment.escape
  · exact h.templateTail (hfragment.enclose rfl
      ((h.expressions ((Grown.fresh _).sign 2).space).gap.expect "\x7d"))

theorem growing_element : Growing source (element (fuel + 1)) := by
  intro c d hd
  rw [element]
  exact hd.enclose rfl (h.attributes ((Grown.fresh _).sign 1).gap.tagName)

theorem growing_attributes : Growing source (attributes (fuel + 1)) := by
  intro c d hd
  rw [attributes]
  simp only
  split
  · exact hd.missing
  · exact hd.gap.sign 2
  · exact h.content (hd.gap.sign 1)
  · exact h.attributes (h.braced hd.gap)
  · split
    · split
      · exact h.attributes (h.attributeValue (hd.gap.tagName.gap.sign 1).gap)
      · exact h.attributes hd.gap.tagName
    · exact h.attributes hd.gap.stray

theorem growing_attributeValue : Growing source (attributeValue (fuel + 1)) := by
  intro c d hd
  rw [attributeValue]
  split
  · exact h.braced hd
  · exact h.element hd
  · split
    · simp only
      split
      · exact hd.missing.token rfl
      · exact hd.token rfl
    · exact hd.missing
  · exact hd.missing

theorem growing_braced : Growing source (braced (fuel + 1)) := by
  intro c d hd
  rw [braced]
  refine hd.enclose rfl (Grown.expect ?_ "\x7d")
  have hsign := ((Grown.fresh d.cursor).sign 1).space
  refine Grown.gap ?_
  split
  · exact hsign
  · split
    · exact h.expression (hsign.sign 3).space
    · exact h.expressions hsign

theorem growing_content : Growing source (content (fuel + 1)) := by
  intro c d hd
  have hfragment : ∀ n, Grown c (if n = 0 then d else d.token .fragment n) :=
    fun _ => hd.some_token rfl
  rw [content]
  specialize hfragment (d.rest.takeWhile fun c => !("<>\x7b\x7d".toList.contains c)).length
  generalize (if (d.rest.takeWhile fun c => !("<>\x7b\x7d".toList.contains c)).length = 0 then d
    else d.token .fragment (d.rest.takeWhile fun c =>
      !("<>\x7b\x7d".toList.contains c)).length) = e at hfragment ⊢
  split
  · exact hfragment.missing
  · exact h.content (h.braced hfragment)
  · exact (hfragment.sign 2).gap.tagName.gap.expect ">"
  · exact h.content (h.element hfragment)
  · exact h.content hfragment.stray

/-! ### Statements -/

theorem growing_block : Growing source (block (fuel + 1)) := by
  intro c d hd
  rw [block]
  split
  · exact hd.enclose rfl (h.statementsTail ((Grown.fresh _).sign 1))
  · exact hd.missing

theorem growing_statementsTail : Growing source (statementsTail (fuel + 1)) := by
  intro c d hd
  rw [statementsTail]
  split
  · exact hd.missing
  · exact hd.space.sign 1
  · exact h.statementsTail (h.statement hd.space)

theorem growing_branchStatements : Growing source (branchStatements (fuel + 1)) := by
  intro c d hd
  rw [branchStatements]
  split
  · exact hd
  · exact hd
  · split
    · exact hd
    · exact h.branchStatements (h.statement hd.space)

theorem growing_branches : Growing source (branches (fuel + 1)) := by
  intro c d hd
  rw [branches]
  split
  · exact hd.missing
  · exact hd.space.sign 1
  · split
    · exact h.branches (hd.space.enclose rfl (h.branchStatements
        ((h.expressions ((Grown.fresh _).wordToken rfl).space).gap.expect ":")))
    · exact h.branches (hd.space.enclose rfl (h.branchStatements
        (((Grown.fresh _).wordToken rfl).gap.expect ":")))
    · exact h.branches hd.space.stray

theorem growing_condition : Growing source (condition (fuel + 1)) := by
  intro c d hd
  rw [condition]
  split
  · exact h.parenthesized hd.gap
  · exact hd.missing

theorem growing_declarations : Growing source (declarations (fuel + 1)) := by
  intro c d hd
  have hpattern := (h.expression hd.space).toPattern
  rw [declarations]
  split
  · exact h.declarations (hpattern.gap.sign 1)
  · exact hpattern

theorem growing_loopHead : Growing source (loopHead (fuel + 1)) := by
  intro c d hd
  unfold loopHead
  extract_lets s e first g opened tested closed
  have hs : Grown c s := hd.space
  have he : Grown c e := h.expression (hs.wordToken rfl).space
  have hfirst : Grown c first := by
    refine .ite hs (.ite (.ite (h.declarations (he.toPattern.gap.sign 1)) ?_) (h.expressions hs))
    split
    · exact he
    · exact he.toPattern
  have hopened : Grown c opened := (hfirst.gap.sign 1).space
  have htested : Grown c tested := .ite hopened (h.expressions hopened)
  have hclosed : Grown c closed := (htested.gap.expect ";").space
  exact .ite (.ite hclosed (h.expressions hclosed))
    (.ite (h.expressions (hfirst.gap.wordToken rfl).space) hfirst)

theorem growing_clause : Growing source (clause (fuel + 1)) := by
  intro c d hd
  rw [clause]
  split
  · exact h.clause (hd.gap.append ((h.clauseNames ((Grown.fresh _).sign 1)).close rfl))
  · exact h.clause (hd.gap.sign 1)
  · exact h.clause (hd.gap.sign 1)
  · exact h.clause (hd.gap.quoted _)
  · exact h.clause (hd.gap.quoted _)
  · split
    · exact hd
    · exact h.clause (hd.gap.wordToken rfl)

theorem growing_clauseNames : Growing source (clauseNames (fuel + 1)) := by
  intro c d hd
  rw [clauseNames]
  split
  · exact hd.missing
  · exact hd.gap.sign 1
  · exact h.clauseNames (hd.gap.sign 1)
  · exact h.clauseNames (hd.gap.sign 1)
  · exact h.clauseNames (hd.gap.quoted _)
  · exact h.clauseNames (hd.gap.quoted _)
  · split
    · exact h.clauseNames (hd.gap.wordToken rfl)
    · split
      · exact hd.missing
      · exact h.clauseNames hd.gap.stray

theorem growing_statement : Growing source (statement (fuel + 1)) := by
  intro c d hd
  have hhead : Grown d.cursor ((fresh d.cursor).wordToken .punctuation) :=
    (Grown.fresh _).wordToken rfl
  have hsentence : ∀ {read : Draft source → Draft source},
      Grown d.cursor (read (fresh d.cursor)) → Grown c (d.sentence .statement read) :=
    fun hread => hd.sentence rfl hread
  unfold statement
  split
  · exact h.block hd
  · exact hd.enclose rfl ((Grown.fresh _).sign 1)
  · exact hd.enclose rfl (h.statement (h.decorators (.fresh _)))
  simp only
  split
  · have hthen := h.statement (h.condition hhead).space
    exact hd.enclose rfl (.ite (h.statement (hthen.gap.wordToken rfl).space) hthen)
  · have hloop : ∀ {e : Draft source}, Grown d.cursor e → Grown d.cursor
        (if e.gap.word == "await" then e.gap.wordToken .punctuation else e) :=
      fun he => .ite (he.gap.wordToken rfl) he
    exact hd.enclose rfl
      (h.statement ((h.loopHead ((hloop hhead).gap.expect "(")).gap.expect ")").space)
  · exact hd.enclose rfl (h.statement (h.condition hhead).space)
  · exact hd.enclose rfl (h.statement (h.condition hhead).space)
  · have hbody := h.statement hhead.space
    have hwhile : ∀ {e : Draft source}, Grown d.cursor e → Grown d.cursor
        (if e.gap.word == "while" then condition fuel (e.gap.wordToken .punctuation)
          else e.missing) :=
      fun he => .ite (h.condition (he.gap.wordToken rfl)) he.missing
    exact hd.enclose rfl (.ite ((hwhile hbody).gap.sign 1) (hwhile hbody))
  · have hcondition := h.condition hhead
    exact hd.enclose rfl (.ite (h.branches (hcondition.gap.sign 1)) hcondition.missing)
  · have htry := h.block hhead.gap
    have hcatch : Grown d.cursor _ := htry.gap.wordToken (k := .punctuation) rfl
    have hparameters := growing_parameters h hcatch.gap
    have hfinally : ∀ {e : Draft source}, Grown d.cursor e → Grown d.cursor
        (if e.gap.word == "finally" then block fuel (e.gap.wordToken .punctuation).gap else e) :=
      fun he => .ite (h.block (he.gap.wordToken rfl).gap) he
    exact hd.enclose rfl
      (hfinally (.ite (h.block (Grown.gap (.ite hparameters hcatch))) htry))
  · exact hsentence (.ite hhead (hhead.gap.wordToken rfl))
  · exact hsentence (.ite hhead (hhead.gap.wordToken rfl))
  · exact hsentence (.ite hhead (h.expressions hhead.space))
  · exact hsentence (h.expressions hhead.space)
  · exact hsentence hhead
  · exact hsentence (h.declarations hhead)
  · exact hsentence (h.declarations hhead)
  · split
    · exact hsentence (h.declarations hhead)
    · exact h.plain hd
  · exact (h.functionFrom hd).toStatement
  · split
    · exact (h.functionFrom hd).toStatement
    · exact h.plain hd
  · exact hd.enclose rfl (h.classTail (.fresh _))
  · split
    · exact h.plain hd
    · exact hsentence (h.clause hhead)
  · split
    · exact hsentence (h.clause hhead)
    · split
      · exact hd.enclose rfl (h.exported (hhead.gap.wordToken rfl).space)
      · split
        · exact hd.enclose rfl (h.statement hhead.space)
        · exact h.plain hd
  · exact h.plain hd

theorem growing_exported : Growing source (exported (fuel + 1)) := by
  intro c d hd
  rw [exported]
  split
  · exact h.statement hd
  · exact hd.sentence rfl (h.expression (.fresh _))

theorem growing_plain : Growing source (plain (fuel + 1)) := by
  intro c d hd
  rw [plain]
  split
  · exact hd.enclose rfl (h.statement (((Grown.fresh _).wordToken rfl).gap.sign 1).space)
  · split
    · exact hd.sentence rfl (h.expressions (.fresh _))
    · exact hd.stray

theorem grows_succ : Grows source (fuel + 1) where
  expressions := growing_expressions h
  expressionsTail := growing_expressionsTail h
  expression := growing_expression h
  binaryTail := growing_binaryTail h
  operand := growing_operand h
  yielded := growing_yielded h
  postfixed := growing_postfixed h
  postfixTail := growing_postfixTail h
  subscript := growing_subscript h
  assigned := growing_assigned h
  primary := growing_primary h
  astray := growing_astray h
  worded := growing_worded h
  named := growing_named h
  arrowBody := growing_arrowBody h
  parenthesized := growing_parenthesized h
  newFrom := growing_newFrom h
  arguments := growing_arguments h
  entries := growing_entries h
  entriesAfter := growing_entriesAfter h
  surplus := growing_surplus h
  entry := growing_entry h
  member := growing_member h
  modified := growing_modified h
  memberTail := growing_memberTail h
  propertyName := growing_propertyName h
  methodTail := growing_methodTail h
  functionFrom := growing_functionFrom h
  classTail := growing_classTail h
  classMembers := growing_classMembers h
  classMember := growing_classMember h
  decorators := growing_decorators h
  template := growing_template h
  templateTail := growing_templateTail h
  element := growing_element h
  attributes := growing_attributes h
  attributeValue := growing_attributeValue h
  braced := growing_braced h
  content := growing_content h
  block := growing_block h
  statementsTail := growing_statementsTail h
  branchStatements := growing_branchStatements h
  branches := growing_branches h
  condition := growing_condition h
  declarations := growing_declarations h
  loopHead := growing_loopHead h
  clause := growing_clause h
  clauseNames := growing_clauseNames h
  statement := growing_statement h
  exported := growing_exported h
  plain := growing_plain h

end Steps

/-! ### Whole texts -/

theorem grows (fuel : Nat) : Grows source fuel := by
  induction fuel with
  | zero => exact grows_zero
  | succ fuel ih => exact grows_succ ih

theorem growing_programTail (fuel steps : Nat) : Growing source (programTail steps fuel) := by
  induction steps with
  | zero =>
    intro c d hd
    exact hd.missing
  | succ steps ih =>
    intro c d hd
    rw [programTail]
    split
    · exact hd.space
    · exact ih ((grows fuel).statement hd.space)

/-- The tree of a text is what a draft from its start has become. -/
theorem exists_grown (source : List Char) :
    ∃ d, Grown (.start source) d ∧ parse source =
      .branch .program (Text.Cursor.start source).mark d.cursor.mark d.nodes.reverse :=
  ⟨_, growing_programTail _ _ (.ite ((Grown.fresh _).token rfl) (.fresh _)), rfl⟩

end Workyard.Script
