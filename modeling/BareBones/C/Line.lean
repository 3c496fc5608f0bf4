import BareBones.Token

/-!
Lines of generated C. A line is a list of pieces at some block depth with a
fixed ending; how its characters are spaced depends on the format. The pretty
format spaces pieces by what they are, the compact format puts a blank only
where two pieces would otherwise run together.
-/

namespace BareBones

/-- The C spelling of a token. -/
def Token.toC : Token → String
  | keyword .let_ => "int"
  | keyword .print => "printf"
  | keyword .read => "scanf"
  | keyword .dotimes => "for"
  | comparison .and => "&&"
  | comparison .or => "||"
  | str text => "\"" ++ text ++ "\""
  | t => t.lexeme

namespace C

inductive Format where
  /-- One statement a line, indented blocks. -/
  | pretty
  /-- No blank that is not needed. -/
  | compact
deriving DecidableEq

namespace Format

/-- A separator between two parts of one piece. -/
def behind (f : Format) (mark : String) : String :=
  match f with
  | pretty => mark ++ " "
  | compact => mark

/-- An operator between two parts of one piece. -/
def around (f : Format) (mark : String) : String :=
  match f with
  | pretty => " " ++ mark ++ " "
  | compact => mark

end Format

/-- What a line is put together from. -/
inductive Piece where
  | token (t : Token)
  /-- A call that prints by a format string. -/
  | print (format : String) (args : List String)
  /-- A call that reads an integer. -/
  | read (target : String)
  /-- The header of a counted loop. With a limit, the bound is copied to it once. -/
  | loop (counter bound : String) (limit : Option String)
deriving DecidableEq

namespace Piece

def loopHeader (f : Format) (counter bound : String) (limit : Option String) : String :=
  let copy := match limit with
    | some l => f.behind "," ++ l ++ f.around "=" ++ bound
    | none => ""
  "for" ++ f.behind "" ++ "(int " ++ counter ++ f.around "=" ++ "0" ++ copy ++
    f.behind ";" ++ counter ++ f.around "<" ++ limit.getD bound ++
    f.behind ";" ++ counter ++ "++)"

def text (f : Format) : Piece → String
  | token t => t.toC
  | print format args =>
    "printf(\"" ++ format ++ "\"" ++ String.join (args.map (f.behind "," ++ ·)) ++ ")"
  | read target => "scanf(\"%d\"" ++ f.behind "," ++ "&" ++ target ++ ")"
  | loop counter bound limit => loopHeader f counter bound limit

/-- No blank stands before these in the pretty format. -/
def hugsLeft : Piece → Bool
  | token (.punctuation m) =>
    match m with
    | .closeParen | .closeSquare | .comma | .semicolon => true
    | _ => false
  | _ => false

/-- No blank stands after these in the pretty format. -/
def hugsRight : Piece → Bool
  | token (.punctuation m) =>
    match m with
    | .openParen | .openSquare => true
    | _ => false
  | token .not => true
  | _ => false

end Piece

def isWordChar (c : Char) : Bool := c.isAlphanum || c = '_'

/-- Two characters that C would read as parts of one token, or as the beginning
or end of a comment. -/
def runTogether (a b : Char) : Bool :=
  isWordChar a && isWordChar b ||
  match b with
  | '=' => "=!<>+-*/%&|^".toList.contains a
  | '>' => a = '-' || a = '>'
  | '*' => a = '/'
  | '/' => a = '/' || a = '*'
  | '&' | '|' | '+' | '-' | '<' => a = b
  | _ => false

/-- The characters of a line under way, newest first, and its last piece. -/
structure Pen where
  written : List Char := []
  last : Option Piece := none

namespace Pen

/-- Whether a blank goes before the next piece. -/
def gap (f : Format) (pen : Pen) (p : Piece) : Bool :=
  match f with
  | .pretty =>
    match pen.last with
    | some before => !before.hugsRight && !p.hugsLeft
    | none => false
  | .compact =>
    match pen.written.head?, (p.text f).toList.head? with
    | some a, some b => runTogether a b
    | _, _ => false

def put (f : Format) (pen : Pen) (p : Piece) : Pen :=
  let written := if pen.gap f p then ' ' :: pen.written else pen.written
  ⟨(p.text f).toList.reverse ++ written, some p⟩

end Pen

inductive Ending where
  | bare
  | statement
  | opening
  | closing
deriving DecidableEq

structure Line where
  depth : Nat
  pieces : List Piece
  ending : Ending

namespace Line

def content (f : Format) (pieces : List Piece) : List Char :=
  (pieces.foldl (Pen.put f) {}).written.reverse

/-- What ends a line with the given content. -/
def tail (f : Format) (content : List Char) : Ending → List Char
  | .bare => []
  | .statement => [';']
  | .opening => if f = .pretty ∧ content ≠ [] then [' ', '\x7b'] else ['\x7b']
  | .closing => ['\x7d']

def text (f : Format) (l : Line) : String :=
  let body := content f l.pieces
  String.ofList (body ++ tail f body l.ending)

end Line

end C

end BareBones
