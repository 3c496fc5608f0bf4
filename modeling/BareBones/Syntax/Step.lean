import BareBones.Syntax.Error
import BareBones.Syntax.Progress

/-!
Reading one token. `Progress.step` either moves on or names the fault, which is
always located at the token it was given.
-/

namespace BareBones

abbrev Reading (α : Type) := Except (Located ParseError) α

/-- The error for a token that does not fit. -/
def refuse {α : Type} (wanted : Expectation) (t : Located Token) : Reading α :=
  match t.val with
  | .unknown text => .error ⟨.unrecognized text, t.span⟩
  | found => .error ⟨.unexpected wanted found, t.span⟩

def expect (wanted : Token) (t : Located Token) (next : Progress) : Reading Progress :=
  if t.val = wanted then .ok next else refuse (.token wanted) t

def readLiteral (digits : String) (span : Span) : Reading Literal :=
  match Literal.ofDigits? digits with
  | some n => .ok n
  | none => .error ⟨.literalOverflow digits, span⟩

/-- Turns a verdict on a name into one on the program. -/
def nameChecked {α : Type} : Except (Located NameError) α → Reading α
  | .ok a => .ok a
  | .error e => .error (e.map .name)

namespace Progress

def readFactor (p : Progress) (t : Located Token) : Reading Factor :=
  match t.val with
  | .number digits => return .number (← readLiteral digits t.span) t.span
  | .id x => do
    nameChecked (p.scope.lookup ⟨x, t.span⟩)
    return .var x t.span
  | _ => refuse .expression t

def readOperand (p : Progress) (t : Located Token) : Reading Operand :=
  match t.val with
  | .number digits => return .number (← readLiteral digits t.span)
  | .id x => do
    nameChecked (p.scope.lookup ⟨x, t.span⟩)
    return .var x
  | _ => refuse .operand t

def readBound (p : Progress) (t : Located Token) : Reading (Located Bound) :=
  match t.val with
  | .number digits => return ⟨.number (← readLiteral digits t.span), t.span⟩
  | .id x => do
    nameChecked (p.scope.lookup ⟨x, t.span⟩)
    return ⟨.var x, t.span⟩
  | _ => refuse .bound t

def readPrintArg (p : Progress) (t : Located Token) : Reading (Located PrintArg) :=
  match t.val with
  | .str text => .ok ⟨.text text, t.span⟩
  | .id x => do
    nameChecked (p.scope.lookup ⟨x, t.span⟩)
    return ⟨.var x, t.span⟩
  | _ => refuse .printArgument t

/-- A name that is given a value. -/
def readTarget (p : Progress) (t : Located Token) : Reading (Located String) :=
  match t.val with
  | .id x => do
    nameChecked (p.scope.lookupTarget ⟨x, t.span⟩)
    return ⟨x, t.span⟩
  | _ => refuse .identifier t

/-- Between two statements: one more begins, or a block or the program ends. -/
def stepStatement (p : Progress) (t : Located Token) : Reading Progress :=
  match t.val with
  | .keyword .let_ => .ok (p.await .newName)
  | .keyword .if_ => .ok (p.await (.conditionOpen .ifTest))
  | .keyword .while_ => .ok (p.await (.conditionOpen .whileTest))
  | .keyword .dotimes => .ok (p.await .boundOpen)
  | .keyword .print => .ok (p.await .printOpen)
  | .keyword .read => .ok (p.await .readOpen)
  | .id _ => return p.await (.assignSign (← p.readTarget t))
  | .closeCurly =>
    match p.closeBlock? with
    | some next => .ok next
    | none => refuse .statement t
  | .eof => if p.frames.isEmpty then .ok p else refuse (.token .closeCurly) t
  | _ => refuse .statement t

/-- Where a factor must come. -/
def stepFactor (p : Progress) (into : Destination) (groups : List OpenGroup)
    (left : Option (Expr × Arithmetic)) (t : Located Token) : Reading Progress :=
  match t.val with
  | .openParen => .ok (p.await (.factor into (⟨left, t.span⟩ :: groups) none))
  | _ => return p.await (.chain into groups (.extend left (← p.readFactor t)))

/-- After a factor: the chain goes on, or its group or statement ends. -/
def stepChain (p : Progress) (into : Destination) (groups : List OpenGroup) (value : Expr)
    (t : Located Token) : Reading Progress :=
  match t.val, groups with
  | .arithmetic op, _ => .ok (p.await (.factor into groups (some (value, op))))
  | _, [] => expect .semicolon t (p.complete (into.statement value))
  | _, g :: outer =>
    expect .closeParen t
      (p.await (.chain into outer (.extend g.left (.group value (g.paren.upTo t.span)))))

/-- Where a condition must end: its group is closed, or all of it is read. -/
def endCondition (p : Progress) (test : Test) (groups : List OpenCondition)
    (links : List Link) (last : Condition) (t : Located Token) : Reading Progress :=
  let whole := links.foldl Link.before last
  match groups with
  | [] => expect .closeParen t (p.await (.blockOpen (test.opener whole)))
  | g :: outer =>
    expect .closeParen t (p.await (.condition test outer g.links (.group g.negated whole)))

def stepCondition (p : Progress) (test : Test) (groups : List OpenCondition)
    (links : List Link) (focus : ConditionFocus) (t : Located Token) : Reading Progress :=
  match focus, t.val with
  | .term, .not => .ok (p.await (.condition test groups links .negated))
  | .term, .openParen => .ok (p.await (.condition test (⟨links, false⟩ :: groups) [] .term))
  | .term, _ =>
    return p.await (.condition test groups links (.operand false (← p.readOperand t)))
  | .negated, .openParen => .ok (p.await (.condition test (⟨links, true⟩ :: groups) [] .term))
  | .negated, _ =>
    return p.await (.condition test groups links (.operand true (← p.readOperand t)))
  | .operand n x, .comparison op =>
    .ok (p.await (.condition test groups links (.right n x op)))
  | .operand n x, _ => p.endCondition test groups links (.simple n x) t
  | .right n x op, _ =>
    return p.await (.condition test groups links (.whole (.compare n x op (← p.readOperand t))))
  | .whole c, _ => p.endCondition test groups links c t
  | .group n c, .comparison op =>
    .ok (p.await (.condition test groups (⟨n, c, op⟩ :: links) .term))
  | .group n c, _ => p.endCondition test groups links (.group n c) t

/-- Reads one token other than a newline. -/
def step (p : Progress) (t : Located Token) : Reading Progress :=
  match p.focus with
  | .start | .statement => p.stepStatement t
  | .afterThen c body =>
    if t.val = .keyword .else_ then .ok (p.await (.blockOpen (.elseBlock c body)))
    else (p.complete (.ifThen c body)).stepStatement t
  | .newName =>
    match t.val with
    | .id x => do
      let scope ← nameChecked (p.scope.declare ⟨x, t.span⟩)
      return { p with scope, focus := .newValue ⟨x, t.span⟩ }
    | _ => refuse .identifier t
  | .newValue x =>
    if t.val = .assign then .ok (p.await (.factor (.declared x) [] none))
    else expect .semicolon t (p.complete (.declare x none))
  | .assignSign x => expect .assign t (p.await (.factor (.assigned x) [] none))
  | .factor into groups left => p.stepFactor into groups left t
  | .chain into groups value => p.stepChain into groups value t
  | .conditionOpen test => expect .openParen t (p.await (.condition test [] [] .term))
  | .condition test groups links focus => p.stepCondition test groups links focus t
  | .blockOpen opener => expect .openCurly t (p.openBlock opener)
  | .boundOpen => expect .openParen t (p.await .bound)
  | .bound => return p.await (.boundClose (← p.readBound t))
  | .boundClose b => expect .closeParen t (p.await (.blockOpen (.timesBlock b)))
  | .printOpen => expect .openParen t (p.await .printFirst)
  | .printFirst => return p.await (.printNext (← p.readPrintArg t) [])
  | .printMore first more => return p.await (.printNext first ((← p.readPrintArg t) :: more))
  | .printNext first more =>
    if t.val = .comma then .ok (p.await (.printMore first more))
    else expect .closeParen t (p.await (.printEnd first more))
  | .printEnd first more => expect .semicolon t (p.complete (.print first more.reverse))
  | .readOpen => expect .openParen t (p.await .readTarget)
  | .readTarget => return p.await (.readClose (← p.readTarget t))
  | .readClose x => expect .closeParen t (p.await (.readEnd x))
  | .readEnd x => expect .semicolon t (p.complete (.read x))

end Progress

end BareBones
