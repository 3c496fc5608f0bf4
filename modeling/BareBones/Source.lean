import BareBones.Position

/-!
A named text, its lines, and the positions of its characters. A line ends at a
newline; a carriage return directly before that newline belongs to the line's
ending, and one anywhere else is an ordinary character.
-/

namespace BareBones

structure Source where
  name : String
  text : String

namespace Source

/-- The text after the first `n` newlines, empty if there are fewer. -/
def dropLines : Nat → List Char → List Char
  | 0, cs => cs
  | _ + 1, [] => []
  | n + 1, c :: cs => if c = '\n' then dropLines n cs else dropLines (n + 1) cs

/-- The first line of a text, without its ending. -/
def firstLine (cs : List Char) : List Char :=
  let body := cs.takeWhile (· ≠ '\n')
  let ended := body.length < cs.length
  if ended ∧ body.getLast? = some '\r' then body.dropLast else body

/-- Line `n` of the source, counted from one; a line that does not exist is empty. -/
def line (s : Source) : Nat → String
  | 0 => ""
  | n + 1 => String.ofList (firstLine (dropLines n s.text.toList))

/-- Each character with its own position, when the first one stands at `p`. -/
def walk (p : Position) : List Char → List (Char × Position)
  | [] => []
  | c :: cs => (c, p) :: walk (p.after c) cs

def characters (s : Source) : List (Char × Position) := walk .start s.text.toList

/-- Position of the character that `i` others precede, or where the text ends. -/
def positionAt (s : Source) (i : Nat) : Position :=
  Position.start.afterAll (s.text.toList.take i)

/-- Position directly behind the last character. -/
def ending (s : Source) : Position := Position.start.afterAll s.text.toList

/-- How a stretch of this source is cited. -/
def cite (s : Source) (span : Span) : String := s.name ++ ":" ++ span.render

@[simp] theorem walk_map_fst (p : Position) (cs : List Char) :
    (walk p cs).map Prod.fst = cs := by
  induction cs generalizing p with
  | nil => rfl
  | cons c cs ih => simp [walk, ih]

theorem positionAt_of_length_le (s : Source) (i : Nat) (h : s.text.toList.length ≤ i) :
    s.positionAt i = s.ending := by
  simp only [positionAt, ending, List.take_of_length_le h]

end Source

end BareBones
