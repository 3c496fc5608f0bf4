import BareBones.Syntax.Parse

/-!
What can be watched while a program is read: each token as it is taken from the
text and each grammar production as it is entered, in the order in which that
happens. The reading itself does not depend on being watched.
-/

namespace BareBones

inductive Production where
  | program
  | statement
  | declaration
  | assignment
  | ifElse
  | whileLoop
  | dotimesLoop
  | printStatement
  | printArgument
  | readStatement
  | block
  | expression
  | factor
  | condition
  | operand
deriving DecidableEq

def Production.name : Production → String
  | program => "<program>"
  | statement => "<statement>"
  | declaration => "<declaration>"
  | assignment => "<assignment>"
  | ifElse => "<if_else>"
  | whileLoop => "<while_loop>"
  | dotimesLoop => "<dotimes_loop>"
  | printStatement => "<print_stmt>"
  | printArgument => "<print_arg>"
  | readStatement => "<read_stmt>"
  | block => "<block>"
  | expression => "<expr>"
  | factor => "<factor>"
  | condition => "<bool_expr>"
  | operand => "<bool_operand>"

/-- The production of the statement that a token begins. -/
def Production.ofStatement : Token → List Production
  | .keyword .let_ => [declaration]
  | .keyword .if_ => [ifElse]
  | .keyword .while_ => [whileLoop]
  | .keyword .dotimes => [dotimesLoop]
  | .keyword .print => [printStatement]
  | .keyword .read => [readStatement]
  | .id _ => [assignment]
  | _ => []

namespace Progress

/-- Productions entered between two statements. -/
def entersStatement (p : Progress) (t : Token) : List Production :=
  if t = .eof ∨ t = .closeCurly ∧ p.frames ≠ [] then []
  else .statement :: Production.ofStatement t

def entersCondition (links : List Link) (focus : ConditionFocus) (t : Token) :
    List Production :=
  match focus with
  | .term =>
    (if links.isEmpty then [.condition] else []) ++
      if t = .not ∨ t = .openParen then [] else [.operand]
  | .negated => if t = .openParen then [] else [.operand]
  | .right .. => [.operand]
  | .operand .. | .whole _ | .group .. => []

/-- The productions that are entered at the next token, outermost first. -/
def enters (p : Progress) (t : Token) : List Production :=
  match p.focus with
  | .start => .program :: p.entersStatement t
  | .statement => p.entersStatement t
  | .afterThen .. => if t = .keyword .else_ then [] else p.entersStatement t
  | .factor _ _ left => if left.isNone then [.expression, .factor] else [.factor]
  | .condition _ _ links focus => entersCondition links focus t
  | .blockOpen _ => [.block]
  | .printFirst | .printMore .. => [.printArgument]
  | _ => []

end Progress

inductive Event where
  | pulled (token : Located Token)
  | entered (production : Production) (span : Span)

namespace Event

/-- How an event is reported. -/
def render (s : Source) : Event → String
  | pulled t => "[lex] " ++ t.val.describe ++ " at " ++ s.cite t.span ++ "\n"
  | entered p span => "[parse] " ++ p.name ++ " at " ++ s.cite span ++ "\n"

def isPulled : Event → Bool
  | pulled _ => true
  | entered .. => false

/-- The tokens up to and including the first that is no newline. -/
def lookahead : List (Located Token) → List (Located Token)
  | [] => []
  | t :: ts => if t.val = .newline then t :: lookahead ts else [t]

/-- What happens while `ts` are read, after `seen`, which is newest first. A name
is judged only when the token behind it has been taken. -/
def record (seen : List Event) (p : Progress) : List (Located Token) → List Event
  | [] => seen.reverse
  | t :: ts =>
    if t.val = .newline then record (pulled t :: seen) p ts
    else
      let entries := (p.enters t.val).map (entered · t.span)
      let seen := entries.reverse ++ pulled t :: seen
      match p.step t with
      | .ok next => record seen next ts
      | .error e => seen.reverse ++ if e.val.isName then (lookahead ts).map pulled else []

end Event

/-- Which events are reported. -/
structure Watch where
  tokens : Bool := false
  productions : Bool := false

def Watch.shows (w : Watch) (e : Event) : Bool :=
  if e.isPulled then w.tokens else w.productions

namespace Source

def events (s : Source) : List Event := Event.record [] .start s.tokens

def trace (s : Source) (w : Watch) : String :=
  String.join ((s.events.filter w.shows).map (Event.render s))

end Source

end BareBones
