import BareBones.Syntax.Step
import BareBones.Token.Scan

/-!
Reading a whole program, token by token. Newlines separate nothing and are
passed over.
-/

namespace BareBones

namespace Progress

def feed (p : Progress) (t : Located Token) : Reading Progress :=
  if t.val = .newline then .ok p else p.step t

/-- Reads all of `ts`, or stops at the first fault. -/
def feedAll (p : Progress) : List (Located Token) → Reading Progress
  | [] => .ok p
  | t :: ts =>
    match p.feed t with
    | .ok next => next.feedAll ts
    | .error e => .error e

theorem feedAll_append (p : Progress) (ts us : List (Located Token)) :
    p.feedAll (ts ++ us) = (p.feedAll ts).bind (·.feedAll us) := by
  induction ts generalizing p with
  | nil => rfl
  | cons t ts ih =>
    simp only [List.cons_append, feedAll]
    cases p.feed t with
    | ok next => exact ih next
    | error e => rfl

end Progress

/-- The program that a list of tokens spells, `eof` being its last. -/
def parse (ts : List (Located Token)) : Reading Program :=
  (Progress.start.feedAll ts).map Progress.program

def Source.parse (s : Source) : Reading Program := BareBones.parse s.tokens

end BareBones
