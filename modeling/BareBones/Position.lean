/-!
Coordinates in a text. Lines and columns count from one and a column is one
character wide, except that a tab fills its line up to the next tab stop. They are
natural numbers and not words of 32 bits, so a text of 2^32 or more lines, or with a
line of 2^32 or more columns, is outside of what is described here.
-/

namespace BareBones

structure Position where
  line : Nat
  column : Nat
deriving DecidableEq

namespace Position

def start : Position := ⟨1, 1⟩

/-- Distance between neighbouring tab stops. -/
def tabStop : Nat := 4

/-- Position of whatever follows `c`, when `c` itself stands at `p`. -/
def after (p : Position) (c : Char) : Position :=
  if c = '\n' then ⟨p.line + 1, 1⟩
  else if c = '\t' then ⟨p.line, p.column + (tabStop - (p.column - 1) % tabStop)⟩
  else ⟨p.line, p.column + 1⟩

/-- Position reached from `p` by walking over all of `cs`. -/
def afterAll (p : Position) (cs : List Char) : Position := cs.foldl after p

@[simp] theorem afterAll_nil (p : Position) : p.afterAll [] = p := rfl

@[simp] theorem afterAll_cons (p : Position) (c : Char) (cs : List Char) :
    p.afterAll (c :: cs) = (p.after c).afterAll cs := rfl

@[simp] theorem afterAll_append (p : Position) (cs ds : List Char) :
    p.afterAll (cs ++ ds) = (p.afterAll cs).afterAll ds :=
  List.foldl_append

/-- Walking never leaves the lines and columns that count from one. -/
theorem one_le_column_after (p : Position) (c : Char) (h : 1 ≤ p.column) :
    1 ≤ (p.after c).column := by
  unfold after
  split
  · exact Nat.le_refl 1
  · split <;> simp only <;> omega

theorem one_le_column_afterAll (p : Position) (cs : List Char) (h : 1 ≤ p.column) :
    1 ≤ (p.afterAll cs).column := by
  induction cs generalizing p with
  | nil => exact h
  | cons c cs ih => exact ih _ (one_le_column_after p c h)

def render (p : Position) : String := toString p.line ++ ":" ++ toString p.column

end Position

/-- The stretch of text between two positions, both included. -/
structure Span where
  first : Position
  last : Position
deriving DecidableEq

namespace Span

def point (p : Position) : Span := ⟨p, p⟩

/-- From where `s` begins to where `t` ends. -/
def upTo (s t : Span) : Span := ⟨s.first, t.last⟩

@[simp] theorem upTo_self (s : Span) : s.upTo s = s := rfl

@[simp] theorem upTo_upTo (s t u : Span) : (s.upTo t).upTo u = s.upTo u := rfl

def render (s : Span) : String :=
  if s.first = s.last then s.first.render
  else "[" ++ s.first.render ++ "-" ++ s.last.render ++ "]"

end Span

/-- A value together with the stretch of text it was read from. -/
structure Located (α : Type) where
  val : α
  span : Span
deriving DecidableEq

def Located.map {α β : Type} (f : α → β) (x : Located α) : Located β := ⟨f x.val, x.span⟩

end BareBones
