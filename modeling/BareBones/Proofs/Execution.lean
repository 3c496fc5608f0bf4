import Mathlib.Logic.Relation
import BareBones.C.Lower

/-!
What programs do, and what the C statements do that they are compiled to. Both
act on a store of integers, the integers still to be read and the texts printed
so far. What an expression, a condition, a `print` and a `read` mean is left to a
`Meaning`, and both sides use the same one. A program repeats the body of a
`dotimes` as often as its bound says on entry; C counts, compares before every
round, and gives its counters back when the loop is left.
-/

namespace BareBones

@[ext] structure State where
  store : String → Int
  /-- Integers that have not been read yet. -/
  input : List Int
  /-- Printed texts, newest first. -/
  output : List String

namespace State

def set (s : State) (x : String) (v : Int) : State :=
  { s with store := fun y => if y = x then v else s.store y }

/-- The part of a state that the variables `names` make up. -/
def user (names : List String) (s : State) : State :=
  { s with store := fun x => if x ∈ names then s.store x else 0 }

end State

/-- Functions of the store for everything but the flow of control. An operation
without a result has no execution. -/
structure Meaning where
  expr : Expr → (String → Int) → Option Int
  condition : Condition → (String → Int) → Option Bool
  /-- What a call prints, from its format string and the names of its values. -/
  print : String → List String → (String → Int) → String
  /-- The new value of a variable, and the input that is left. -/
  read : String → (String → Int) → List Int → Option (Int × List Int)

namespace Meaning

/-- `x = e` -/
def Assigns (m : Meaning) (x : String) (e : Expr) (view s t : State) : Prop :=
  ∃ v, m.expr e view.store = some v ∧ t = s.set x v

/-- `print` with a format string and the names of its values. -/
def Prints (m : Meaning) (format : String) (args : List String) (view s t : State) : Prop :=
  t = { s with output := m.print format args view.store :: s.output }

def Reads (m : Meaning) (x : String) (view s t : State) : Prop :=
  ∃ v rest, m.read x view.store s.input = some (v, rest) ∧ t = { s.set x v with input := rest }

end Meaning

/-! ## Flow of control -/

/-- One after the other. -/
def Seq (first second : State → State → Prop) (s t : State) : Prop :=
  ∃ u, first s u ∧ second u t

/-- One of two, by a test. -/
def Branch (test : State → Option Bool) (yes no : State → State → Prop) (s t : State) : Prop :=
  test s = some true ∧ yes s t ∨ test s = some false ∧ no s t

/-- One round of a loop: the test holds and the body runs. -/
def Round (test : State → Option Bool) (body : State → State → Prop) (s t : State) : Prop :=
  test s = some true ∧ body s t

/-- Rounds as long as the test holds. -/
def While (test : State → Option Bool) (body : State → State → Prop) (s t : State) : Prop :=
  Relation.ReflTransGen (Round test body) s t ∧ test t = some false

/-- The body `n` times. -/
def Times (body : State → State → Prop) : Nat → State → State → Prop
  | 0 => Eq
  | n + 1 => Seq body (Times body n)

/-! ## Programs -/

def Bound.value : Bound → (String → Int) → Int
  | number n, _ => n.value
  | var x, store => store x

mutual

/-- `s` takes the first state to the second. -/
def Statement.Runs (m : Meaning) : Statement → State → State → Prop
  | .declare _ none => Eq
  | .declare x (some e) | .assign x e => fun s t => m.Assigns x.val e s s t
  | .ifThen c body => Branch (fun s => m.condition c s.store) (Statement.RunsAll m body) Eq
  | .ifElse c body otherwise =>
    Branch (fun s => m.condition c s.store) (Statement.RunsAll m body)
      (Statement.RunsAll m otherwise)
  | .whileDo c body => While (fun s => m.condition c s.store) (Statement.RunsAll m body)
  | .dotimes b body => fun s => Times (Statement.RunsAll m body) (b.val.value s.store).toNat s
  | .print first more => fun s t =>
    m.Prints (String.join ((first :: more).map (·.val.format)))
      ((first :: more).filterMap (·.val.name?)) s s t
  | .read x => fun s t => m.Reads x.val s s t

def Statement.RunsAll (m : Meaning) : List Statement → State → State → Prop
  | [] => Eq
  | s :: rest => Seq (s.Runs m) (Statement.RunsAll m rest)

end

/-! ## C statements -/

namespace C

namespace Limit

/-- What the counter is compared with, looked up anew before every round. -/
def value : Limit → (String → Int) → Int
  | literal n, _ => n.value
  | copy name _, store => store name

/-- `int counter = 0`, and the copy of the bound behind it. -/
def enter (counter : String) : Limit → State → State
  | literal _, s => s.set counter 0
  | copy name bound, s => (s.set counter 0).set name ((s.set counter 0).store bound)

def test (counter : String) (limit : Limit) (s : State) : Option Bool :=
  some (decide (s.store counter < limit.value s.store))

/-- The variables of the loop end with its block. Names outside have their values
from before it again. -/
def leave (counter : String) : Limit → State → State → State
  | literal _, outside, s => s.set counter (outside.store counter)
  | copy name _, outside, s =>
    (s.set counter (outside.store counter)).set name (outside.store name)

end Limit

/-- `counter++` -/
def Increments (counter : String) (s t : State) : Prop :=
  t = s.set counter (s.store counter + 1)

mutual

/-- A C statement takes the first state to the second. Expressions, conditions and
calls are functions of the variables `names`. -/
def Statement.Runs (m : Meaning) (names : List String) : Statement → State → State → Prop
  | .assign x e => fun s t => m.Assigns x e (s.user names) s t
  | .ifThen c body =>
    Branch (fun s => m.condition c (s.user names).store) (Statement.RunsAll m names body) Eq
  | .ifElse c body otherwise =>
    Branch (fun s => m.condition c (s.user names).store) (Statement.RunsAll m names body)
      (Statement.RunsAll m names otherwise)
  | .whileDo c body =>
    While (fun s => m.condition c (s.user names).store) (Statement.RunsAll m names body)
  | .loop counter limit body => fun s t =>
    ∃ u, While (limit.test counter) (Seq (Statement.RunsAll m names body) (Increments counter))
      (limit.enter counter s) u ∧ t = limit.leave counter s u
  | .print format args => fun s t => m.Prints format args (s.user names) s t
  | .read x => fun s t => m.Reads x (s.user names) s t

def Statement.RunsAll (m : Meaning) (names : List String) :
    List Statement → State → State → Prop
  | [] => Eq
  | s :: rest => Seq (s.Runs m names) (Statement.RunsAll m names rest)

end

mutual

/-- While the statement runs from the state, finished or not, a counter holds `v` in
a loop with the limit `limit`, whose value was `n` on entry. -/
def Statement.Counts (m : Meaning) (names : List String) (v : Int) (limit : Limit) (n : Int) :
    Statement → State → Prop
  | .assign .. | .print .. | .read _ => fun _ => False
  | .ifThen c body => fun s =>
    m.condition c (s.user names).store = some true ∧ Statement.CountsAll m names v limit n body s
  | .ifElse c body otherwise => fun s =>
    m.condition c (s.user names).store = some true ∧ Statement.CountsAll m names v limit n body s ∨
      m.condition c (s.user names).store = some false ∧
        Statement.CountsAll m names v limit n otherwise s
  | .whileDo c body => fun s =>
    ∃ u, Relation.ReflTransGen (Round (fun s => m.condition c (s.user names).store)
      (Statement.RunsAll m names body)) s u ∧
        m.condition c (u.user names).store = some true ∧
          Statement.CountsAll m names v limit n body u
  | .loop counter own body => fun s =>
    ∃ u, Relation.ReflTransGen (Round (own.test counter)
      (Seq (Statement.RunsAll m names body) (Increments counter))) (own.enter counter s) u ∧
        (v = u.store counter ∧ limit = own ∧ n = own.value (own.enter counter s).store ∨
          own.test counter u = some true ∧ Statement.CountsAll m names v limit n body u)

def Statement.CountsAll (m : Meaning) (names : List String) (v : Int) (limit : Limit) (n : Int) :
    List Statement → State → Prop
  | [] => fun _ => False
  | s :: rest => fun t =>
    s.Counts m names v limit n t ∨
      ∃ u, s.Runs m names t u ∧ Statement.CountsAll m names v limit n rest u

end

end C

end BareBones
