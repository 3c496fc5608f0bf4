import BareBones.C.Lower
import BareBones.Proofs.C.Lexeme

/-!
The C tokens of a program, by recursion on its tree and without any text: `main`
with one declaration for each declared name, then the statements in their order.
-/

namespace BareBones

open C (Lexeme)

def Arithmetic.mark : Arithmetic → Lexeme
  | add => .mark "+"
  | sub => .mark "-"
  | mul => .mark "*"
  | div => .mark "/"
  | mod => .mark "%"

def Comparison.mark : Comparison → Lexeme
  | equal => .mark "=="
  | notEqual => .mark "!="
  | less => .mark "<"
  | greater => .mark ">"
  | lessOrEqual => .mark "<="
  | greaterOrEqual => .mark ">="
  | and => .mark "&&"
  | or => .mark "||"

namespace C.Lexeme

def parens (ls : List Lexeme) : List Lexeme := .mark "(" :: (ls ++ [.mark ")"])

def braces (ls : List Lexeme) : List Lexeme := .mark "\x7b" :: (ls ++ [.mark "\x7d"])

/-- An optional `!`. -/
def bang (negated : Bool) : List Lexeme := if negated then [.mark "!"] else []

/-- `for (int counter = 0 copy; counter < limit; counter++)`. -/
def forHeader (counter : String) (copy : List Lexeme) (limit : Lexeme) : List Lexeme :=
  .word "for" :: parens ([.word "int", .word counter, .mark "=", .number "0"] ++ copy ++
    [.mark ";", .word counter, .mark "<", limit, .mark ";", .word counter, .mark "++"])

end C.Lexeme

open C.Lexeme (parens braces bang forHeader)

mutual

def Factor.lexemes : Factor → List Lexeme
  | .number n _ => [.number (toString n.value)]
  | .var x _ => [.word x]
  | .group e _ => parens e.lexemes

def Expr.lexemes : Expr → List Lexeme
  | .factor f => f.lexemes
  | .binary left op right => left.lexemes ++ op.mark :: right.lexemes

end

def Operand.lexeme : Operand → Lexeme
  | number n => .number (toString n.value)
  | var x => .word x

def Condition.lexemes : Condition → List Lexeme
  | simple n x => bang n ++ [x.lexeme]
  | compare n x op y => bang n ++ [x.lexeme, op.mark, y.lexeme]
  | group n c => bang n ++ parens c.lexemes
  | groupThen n c op d => bang n ++ parens c.lexemes ++ op.mark :: d.lexemes

/-- The header of loop number `k`. A variable bound is copied before the first
comparison, a literal is compared with as it is. -/
def Bound.lexemes (k : Nat) (b : Bound) : List Lexeme :=
  let counter := "_dotimes" ++ toString k
  let limit := counter ++ "_end"
  match b with
  | number n => forHeader counter [] (.number (toString n.value))
  | var x => forHeader counter [.mark ",", .word limit, .mark "=", .word x] (.word limit)

namespace PrintArg

/-- What a format string has for an argument: a text with each percent sign
doubled, or the conversion of an integer. -/
def formatChars : PrintArg → List Char
  | text raw => doubled raw.toList
  | var _ => ['%', 'd']
where
  doubled : List Char → List Char
    | [] => []
    | c :: cs => if c = '%' then '%' :: '%' :: doubled cs else c :: doubled cs

/-- The value that an argument passes to the call. -/
def valueLexemes : PrintArg → List Lexeme
  | text _ => []
  | var x => [.mark ",", .word x]

def lexemes (args : List PrintArg) : List Lexeme :=
  .word "printf" ::
    parens (.text (String.ofList (args.flatMap formatChars)) :: args.flatMap valueLexemes)

end PrintArg

mutual

/-- The C tokens of a statement, when `k` loops come before it. -/
def Statement.lexemes (k : Nat) : Statement → List Lexeme
  | .declare _ none => []
  | .declare x (some e) | .assign x e => .word x.val :: .mark "=" :: (e.lexemes ++ [.mark ";"])
  | .ifThen c body => .word "if" :: (parens c.lexemes ++ braces (Statement.lexemesAll k body))
  | .ifElse c body otherwise =>
    .word "if" :: (parens c.lexemes ++ braces (Statement.lexemesAll k body) ++
      .word "else" :: braces (Statement.lexemesAll (k + Statement.loopsAll body) otherwise))
  | .whileDo c body =>
    .word "while" :: (parens c.lexemes ++ braces (Statement.lexemesAll k body))
  | .dotimes b body => b.val.lexemes k ++ braces (Statement.lexemesAll (k + 1) body)
  | .print first more => PrintArg.lexemes ((first :: more).map (·.val)) ++ [.mark ";"]
  | .read x =>
    .word "scanf" :: parens [.text "%d", .mark ",", .mark "&", .word x.val] ++ [.mark ";"]

def Statement.lexemesAll (k : Nat) : List Statement → List Lexeme
  | [] => []
  | s :: rest => s.lexemes k ++ Statement.lexemesAll (k + s.loops) rest

end

/-- The C tokens of a program behind its `#include`. -/
def Program.lexemes (p : Program) : List Lexeme :=
  [.word "int", .word "main"] ++ parens [.word "void"] ++
    braces ((p.declarations.flatMap fun x => [.word "int", .word x, .mark ";"]) ++
      Statement.lexemesAll 0 p.statements)

end BareBones
