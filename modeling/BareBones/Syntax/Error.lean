import BareBones.Scope
import BareBones.Syntax

/-!
Why a program is refused. The first fault ends the reading, and input that is no
token at all is reported as such wherever it stands.
-/

namespace BareBones

/-- What the grammar admits at some point. -/
inductive Expectation where
  | token (t : Token)
  | statement
  | identifier
  | expression
  | operand
  | printArgument
  | bound
deriving DecidableEq

inductive ParseError where
  | unexpected (wanted : Expectation) (found : Token)
  | unrecognized (text : String)
  | literalOverflow (digits : String)
  | name (error : NameError)
deriving DecidableEq

def Expectation.describe : Expectation → String
  | token t => t.describe
  | statement =>
    "a statement (`let`, `if`, `while`, `dotimes`, `print`, `read` or an assignment)"
  | identifier => "identifier"
  | expression => "a number, an identifier or `(`"
  | operand => "an identifier or a number in boolean expression"
  | printArgument => "a string literal or an identifier for `print`"
  | bound => "an identifier or a number as `dotimes` bound"

namespace ParseError

def message : ParseError → String
  | unexpected wanted found =>
    "Expected " ++ wanted.describe ++ ", found " ++ found.describe ++ " instead"
  | unrecognized text => "Unrecognized input `" ++ text ++ "`"
  | literalOverflow digits =>
    "Integer literal `" ++ digits ++ "` overflows, valid range is [0, " ++
      toString maxLiteral ++ "]"
  | name e => e.message

/-- The heading of a report on this error. -/
def label : ParseError → String
  | name _ => "Semantic error"
  | _ => "Syntax error"

def isName : ParseError → Bool
  | name _ => true
  | _ => false

end ParseError

end BareBones
