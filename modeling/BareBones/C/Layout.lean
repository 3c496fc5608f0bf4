import BareBones.C.Line

/-!
From a sequence of pieces and boundaries to the text of a C program. Boundaries
end lines and open or close blocks; a line without characters is left out. The
declared variables come first in `main`.
-/

namespace BareBones.C

inductive Item where
  | piece (p : Piece)
  | beginBlock
  | endBlock
  | endStatement
deriving DecidableEq

/-- Lines laid out so far and the pieces of the current one, newest first. -/
structure Layout where
  depth : Nat := 0
  pending : List Piece := []
  lines : List Line := []

namespace Layout

/-- Ends the current line. -/
def flush (l : Layout) (ending : Ending) : Layout :=
  { l with pending := [], lines := ⟨l.depth, l.pending.reverse, ending⟩ :: l.lines }

def put (l : Layout) : Item → Layout
  | .piece p => { l with pending := p :: l.pending }
  | .endStatement => l.flush .statement
  | .beginBlock => { l.flush .opening with depth := l.depth + 1 }
  | .endBlock => { l.flush .bare with depth := l.depth - 1 }.flush .closing

def ofItems (items : List Item) : Layout := items.foldl put {}

/-- All lines, the current one included. -/
def finish (l : Layout) : List Line := (l.flush .bare).lines.reverse

end Layout

def indentation (depth : Nat) : String := String.ofList (List.replicate (4 * depth) ' ')

/-- A line of `main`, whose own block adds one to the depth. -/
def prettyLine (depth : Nat) (text : String) : String := indentation (depth + 1) ++ text ++ "\n"

def declaration (name : String) : String := "int " ++ name ++ ";"

/-- Lines that have characters, each with its depth. -/
def nonempty (f : Format) (lines : List Line) : List (Nat × String) :=
  (lines.map fun l => (l.depth, l.text f)).filter (·.2 ≠ "")

/-- The whole program: `main` with its declarations and lines. -/
def render (f : Format) (declarations : List String) (lines : List Line) : String :=
  let body := nonempty f lines
  match f with
  | .pretty =>
    "#include <stdio.h>\n\nint main(void) \x7b\n" ++
      String.join (declarations.map fun x => prettyLine 0 (declaration x)) ++
      (if declarations ≠ [] ∧ body ≠ [] then "\n" else "") ++
      String.join (body.map fun l => prettyLine l.1 l.2) ++ "\x7d\n"
  | .compact =>
    "#include <stdio.h>\nint main(void)\x7b" ++ String.join (declarations.map declaration) ++
      String.join (body.map (·.2)) ++ "\x7d\n"

end BareBones.C
