import BareBones.Token

/-!
Programs as trees. The types admit exactly the shapes of the grammar: an
expression is a chain of factors that groups to the left, a condition compares
two plain operands or goes on after a parenthesized condition, and a `print`
has at least one argument. `tokens` spells expressions and conditions out again.
-/

namespace BareBones

/-- The largest integer that may be written down. -/
def maxLiteral : Nat := 2147483647

structure Literal where
  value : Nat
  le_max : value ≤ maxLiteral
deriving DecidableEq

namespace Literal

/-- The number that decimal digits denote, if it is in range. -/
def ofDigits? (digits : String) : Option Literal :=
  let n := Nat.ofDigitChars 10 digits.toList 0
  if h : n ≤ maxLiteral then some ⟨n, h⟩ else none

def numeral (n : Literal) : String := toString n.value

def token (n : Literal) : Token := .number n.numeral

end Literal

mutual

inductive Factor where
  | number (value : Literal) (span : Span)
  | var (name : String) (span : Span)
  | group (inner : Expr) (span : Span)

/-- `factor (op factor)*`, read from left to right whatever the operators are. -/
inductive Expr where
  | factor (only : Factor)
  | binary (left : Expr) (op : Arithmetic) (right : Factor)

end

namespace Factor

/-- Where the factor stands, a group with its parentheses. -/
def span : Factor → Span
  | number _ s | var _ s | group _ s => s

end Factor

namespace Expr

/-- From the first to the last factor of the chain. -/
def span : Expr → Span
  | factor f => f.span
  | binary left _ right => left.span.upTo right.span

/-- The chain with one more factor on its right end. -/
def extend : Option (Expr × Arithmetic) → Factor → Expr
  | none, f => factor f
  | some (left, op), f => binary left op f

end Expr

mutual

/-- The tokens of a factor, followed by `rest`. -/
def Factor.tokensThen : Factor → List Token → List Token
  | .number n _, rest => n.token :: rest
  | .var x _, rest => .id x :: rest
  | .group e _, rest => .openParen :: e.tokensThen (.closeParen :: rest)

/-- The tokens of an expression, followed by `rest`. -/
def Expr.tokensThen : Expr → List Token → List Token
  | .factor f, rest => f.tokensThen rest
  | .binary left op right, rest => left.tokensThen (.arithmetic op :: right.tokensThen rest)

end

def Expr.tokens (e : Expr) : List Token := e.tokensThen []

/-- What a condition may compare. -/
inductive Operand where
  | number (value : Literal)
  | var (name : String)
deriving DecidableEq

def Operand.token : Operand → Token
  | number n => n.token
  | var x => .id x

/-- Only a parenthesized condition can be followed by another condition; a plain
operand is compared with one more plain operand at most. -/
inductive Condition where
  | simple (negated : Bool) (operand : Operand)
  | compare (negated : Bool) (left : Operand) (op : Comparison) (right : Operand)
  | group (negated : Bool) (inner : Condition)
  | groupThen (negated : Bool) (inner : Condition) (op : Comparison) (rest : Condition)
deriving DecidableEq

namespace Condition

def negation (negated : Bool) (rest : List Token) : List Token :=
  if negated then .not :: rest else rest

/-- The tokens of a condition, followed by `rest`. -/
def tokensThen : Condition → List Token → List Token
  | simple n x, rest => negation n (x.token :: rest)
  | compare n x op y, rest => negation n (x.token :: .comparison op :: y.token :: rest)
  | group n c, rest => negation n (.openParen :: c.tokensThen (.closeParen :: rest))
  | groupThen n c op d, rest =>
    negation n (.openParen :: c.tokensThen (.closeParen :: .comparison op :: d.tokensThen rest))

def tokens (c : Condition) : List Token := c.tokensThen []

end Condition

/-- How often a `dotimes` runs its body. -/
inductive Bound where
  | number (value : Literal)
  | var (name : String)
deriving DecidableEq

inductive PrintArg where
  | text (raw : String)
  | var (name : String)
deriving DecidableEq

inductive Statement where
  | declare (name : Located String) (value : Option Expr)
  | assign (target : Located String) (value : Expr)
  | ifThen (condition : Condition) (body : List Statement)
  | ifElse (condition : Condition) (body otherwise : List Statement)
  | whileDo (condition : Condition) (body : List Statement)
  | dotimes (bound : Located Bound) (body : List Statement)
  | print (first : Located PrintArg) (more : List (Located PrintArg))
  | read (target : Located String)

structure Program where
  /-- Declared names, in the order of their declarations. -/
  declarations : List String
  statements : List Statement

end BareBones
