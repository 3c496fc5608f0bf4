import BareBones.Position

/-!
The words and symbols of the language. Only names, numbers, texts and input that
belongs to no class carry characters of their own; every other token has one
spelling. `and` and `or` are spelled as words but are operators.
-/

namespace BareBones

inductive Keyword where
  | let_
  | if_
  | else_
  | while_
  | dotimes
  | print
  | read
deriving DecidableEq

inductive Punctuation where
  | openParen
  | closeParen
  | openSquare
  | closeSquare
  | openCurly
  | closeCurly
  | semicolon
  | comma
deriving DecidableEq

inductive Arithmetic where
  | add
  | sub
  | mul
  | div
  | mod
deriving DecidableEq

/-- What may join the terms of a condition, the connectives included. -/
inductive Comparison where
  | equal
  | notEqual
  | less
  | greater
  | lessOrEqual
  | greaterOrEqual
  | and
  | or
deriving DecidableEq

inductive Operator where
  | assign
  | not
  | arithmetic (op : Arithmetic)
  | comparison (op : Comparison)
deriving DecidableEq

inductive Token where
  | eof
  | newline
  | id (name : String)
  | number (digits : String)
  | str (text : String)
  | unknown (text : String)
  | punctuation (mark : Punctuation)
  | operator (op : Operator)
  | keyword (word : Keyword)
deriving DecidableEq

inductive TokenClass where
  | structural
  | punctuation
  | operator
  | keyword
deriving DecidableEq

namespace Keyword

def word : Keyword → String
  | let_ => "let"
  | if_ => "if"
  | else_ => "else"
  | while_ => "while"
  | dotimes => "dotimes"
  | print => "print"
  | read => "read"

def all : List Keyword := [let_, if_, else_, while_, dotimes, print, read]

def ofWord? (s : String) : Option Keyword := all.find? (·.word = s)

theorem mem_all (k : Keyword) : k ∈ all := by cases k <;> decide

theorem ofWord?_word (k : Keyword) : ofWord? k.word = some k := by cases k <;> decide

end Keyword

def Punctuation.symbol : Punctuation → String
  | openParen => "("
  | closeParen => ")"
  | openSquare => "["
  | closeSquare => "]"
  | openCurly => "\x7b"
  | closeCurly => "\x7d"
  | semicolon => ";"
  | comma => ","

def Arithmetic.symbol : Arithmetic → String
  | add => "+"
  | sub => "-"
  | mul => "*"
  | div => "/"
  | mod => "%"

def Comparison.symbol : Comparison → String
  | equal => "=="
  | notEqual => "!="
  | less => "<"
  | greater => ">"
  | lessOrEqual => "<="
  | greaterOrEqual => ">="
  | and => "and"
  | or => "or"

def Operator.symbol : Operator → String
  | assign => "="
  | not => "!"
  | arithmetic op => op.symbol
  | comparison op => op.symbol

namespace Token

@[match_pattern] abbrev openParen : Token := punctuation .openParen
@[match_pattern] abbrev closeParen : Token := punctuation .closeParen
@[match_pattern] abbrev openCurly : Token := punctuation .openCurly
@[match_pattern] abbrev closeCurly : Token := punctuation .closeCurly
@[match_pattern] abbrev semicolon : Token := punctuation .semicolon
@[match_pattern] abbrev comma : Token := punctuation .comma
@[match_pattern] abbrev assign : Token := operator .assign
@[match_pattern] abbrev not : Token := operator .not
@[match_pattern] abbrev arithmetic (op : Arithmetic) : Token := operator (.arithmetic op)
@[match_pattern] abbrev comparison (op : Comparison) : Token := operator (.comparison op)

/-- The token a run of letters and digits stands for. -/
def ofWord (s : String) : Token :=
  if s = Comparison.and.symbol then comparison .and
  else if s = Comparison.or.symbol then comparison .or
  else match Keyword.ofWord? s with
    | some k => keyword k
    | none => id s

/-- The characters of a token, a text without its quotes. -/
def lexeme : Token → String
  | eof => "EOF"
  | newline => "newline"
  | id name => name
  | number digits => digits
  | str text => text
  | unknown text => text
  | punctuation mark => mark.symbol
  | operator op => op.symbol
  | keyword k => k.word

def tokenClass : Token → TokenClass
  | eof | newline | id _ | number _ | str _ | unknown _ => .structural
  | punctuation _ => .punctuation
  | operator _ => .operator
  | keyword _ => .keyword

/-- How messages name a token. -/
def describe : Token → String
  | eof => "end of input"
  | newline => "newline"
  | id name => "identifier `" ++ name ++ "`"
  | number digits => "literal `" ++ digits ++ "`"
  | str text => "string \"" ++ text ++ "\""
  | unknown text => "unrecognized input `" ++ text ++ "`"
  | punctuation mark => "`" ++ mark.symbol ++ "`"
  | operator op => "`" ++ op.symbol ++ "`"
  | keyword k => "keyword `" ++ k.word ++ "`"

end Token

end BareBones
