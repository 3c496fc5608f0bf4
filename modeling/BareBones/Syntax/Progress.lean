import BareBones.Scope
import BareBones.Syntax

/-!
A program read in part. `Progress` holds the statements finished so far, the
blocks that are still open around them, and a `Focus` that says what has been
read of the current statement and so which tokens may come next. Lists that grow
while reading are kept newest first.
-/

namespace BareBones

/-- What an expression under way is the value of. -/
inductive Destination where
  | declared (name : Located String)
  | assigned (target : Located String)

def Destination.statement : Destination → Expr → Statement
  | declared x, e => .declare x (some e)
  | assigned x, e => .assign x e

/-- A parenthesis left open in an expression, and the chain to its left. -/
structure OpenGroup where
  left : Option (Expr × Arithmetic)
  paren : Span

/-- The statement that a condition belongs to. -/
inductive Test where
  | ifTest
  | whileTest

/-- A parenthesized condition and the operator behind it. -/
structure Link where
  negated : Bool
  inner : Condition
  op : Comparison

def Link.before (rest : Condition) (l : Link) : Condition :=
  .groupThen l.negated l.inner l.op rest

/-- A parenthesis left open in a condition, and the links to its left. -/
structure OpenCondition where
  links : List Link
  negated : Bool

inductive ConditionFocus where
  /-- A term comes next, with or without a `!`. -/
  | term
  /-- A `!` has been read. -/
  | negated
  | operand (negated : Bool) (operand : Operand)
  | right (negated : Bool) (left : Operand) (op : Comparison)
  | whole (condition : Condition)
  | group (negated : Bool) (inner : Condition)

/-- What an open block will be the body of. -/
inductive Opener where
  | thenBlock (condition : Condition)
  | elseBlock (condition : Condition) (body : List Statement)
  | whileBlock (condition : Condition)
  | timesBlock (bound : Located Bound)

def Test.opener : Test → Condition → Opener
  | ifTest => .thenBlock
  | whileTest => .whileBlock

inductive Focus where
  /-- Nothing has been read yet. -/
  | start
  /-- A statement may begin, or the block may end. -/
  | statement
  /-- The first block of an `if` is closed and an `else` may follow. -/
  | afterThen (condition : Condition) (body : List Statement)
  /-- The name after `let`. -/
  | newName
  /-- `=` or `;` after the declared name. -/
  | newValue (name : Located String)
  /-- `=` after the name that begins an assignment. -/
  | assignSign (target : Located String)
  | factor (into : Destination) (groups : List OpenGroup) (left : Option (Expr × Arithmetic))
  /-- An operator, or what ends the expression. -/
  | chain (into : Destination) (groups : List OpenGroup) (value : Expr)
  | conditionOpen (test : Test)
  | condition (test : Test) (groups : List OpenCondition) (links : List Link)
      (focus : ConditionFocus)
  | blockOpen (opener : Opener)
  | boundOpen
  | bound
  | boundClose (bound : Located Bound)
  | printOpen
  | printFirst
  | printMore (first : Located PrintArg) (more : List (Located PrintArg))
  /-- `,` or `)` after an argument. -/
  | printNext (first : Located PrintArg) (more : List (Located PrintArg))
  | printEnd (first : Located PrintArg) (more : List (Located PrintArg))
  | readOpen
  | readTarget
  | readClose (target : Located String)
  | readEnd (target : Located String)

/-- An open block and the statements before the one it belongs to. -/
structure Frame where
  opener : Opener
  before : List Statement

structure Progress where
  scope : Scope := {}
  frames : List Frame := []
  done : List Statement := []
  focus : Focus := .start

namespace Progress

def start : Progress := {}

def await (p : Progress) (focus : Focus) : Progress := { p with focus }

def complete (p : Progress) (s : Statement) : Progress :=
  { p with done := s :: p.done, focus := .statement }

def openBlock (p : Progress) (opener : Opener) : Progress :=
  { p with frames := ⟨opener, p.done⟩ :: p.frames, done := [], focus := .statement }

/-- Ends the innermost block, if one is open. -/
def closeBlock? (p : Progress) : Option Progress :=
  match p.frames with
  | [] => none
  | f :: frames =>
    let outer := { p with frames, done := f.before }
    let body := p.done.reverse
    match f.opener with
    | .thenBlock c => some (outer.await (.afterThen c body))
    | .elseBlock c first => some (outer.complete (.ifElse c first body))
    | .whileBlock c => some (outer.complete (.whileDo c body))
    | .timesBlock b => some (outer.complete (.dotimes b body))

/-- What the statements outside of any block make up. -/
def program (p : Progress) : Program := ⟨p.scope.names, p.done.reverse⟩

end Progress

end BareBones
