import BareBones.Source

/-!
Error reports. Each one gives its message, cites the stretch of source it is
about, quotes that stretch line by line and marks its columns with carets. The
margin is as wide as the number of the last quoted line.
-/

namespace BareBones

/-- One thing that went wrong, and where. -/
structure Complaint where
  message : String
  source : Source
  span : Span

structure Report where
  label : String := "error"
  complaints : List Complaint := []

namespace Complaint

def blanks (n : Nat) : String := String.ofList (List.replicate n ' ')

/-- A number, pushed to the right end of `width` columns. -/
def padded (width n : Nat) : String := blanks (width - (toString n).length) ++ toString n

/-- Width of the margin that holds the line numbers. -/
def margin (c : Complaint) : Nat := (toString c.span.last.line).length

/-- The numbers of the lines a span touches. -/
def lineNumbers (s : Span) : List Nat :=
  List.range' s.first.line (s.last.line + 1 - s.first.line)

def quoted (c : Complaint) (n : Nat) : String :=
  padded c.margin n ++ " | " ++ c.source.line n

/-- Carets from the smaller to the larger of the two columns, which in a span
over several lines may stand in either order. -/
def carets (s : Span) : String :=
  let left := min s.first.column s.last.column
  let right := max s.first.column s.last.column
  blanks (left - 1) ++ String.ofList (List.replicate (right - left + 1) '^')

def rows (c : Complaint) : List String :=
  (blanks c.margin ++ "--> " ++ c.source.cite c.span) ::
  (blanks c.margin ++ " |") ::
  (lineNumbers c.span).map c.quoted ++
  [blanks c.margin ++ " | " ++ carets c.span]

end Complaint

namespace Report

def unlines (rows : List String) : String := String.join (rows.map (· ++ "\n"))

def messages (r : Report) : List String := r.complaints.map (·.message)

def isEmpty (r : Report) : Bool := r.complaints.isEmpty

/-- The closing row, which counts the complaints. -/
def verdict (n : Nat) : String :=
  "Translation failed with " ++ toString n ++ if n = 1 then " error" else " errors"

def render (r : Report) : String :=
  if r.isEmpty then "No errors were reported\n"
  else
    unlines <|
      r.complaints.flatMap (fun c => (r.label ++ ": " ++ c.message) :: c.rows ++ [""]) ++
      [verdict r.complaints.length]

end Report

end BareBones
