import BareBones.C.Statement

/-!
From programs to C statements. Statements keep their order; a declaration leaves
only the assignment of its initial value, since the variable itself is declared
at the top of `main`. Loops are numbered in the order in which they are written.
-/

namespace BareBones

mutual

/-- The number of counted loops in a statement. -/
def Statement.loops : Statement → Nat
  | .ifThen _ body | .whileDo _ body => Statement.loopsAll body
  | .ifElse _ body otherwise => Statement.loopsAll body + Statement.loopsAll otherwise
  | .dotimes _ body => 1 + Statement.loopsAll body
  | .declare .. | .assign .. | .print .. | .read _ => 0

def Statement.loopsAll : List Statement → Nat
  | [] => 0
  | s :: rest => s.loops + Statement.loopsAll rest

end

def counterName (k : Nat) : String := "_dotimes" ++ toString k

def limitName (k : Nat) : String := counterName k ++ "_end"

/-- The limit of loop number `k`. The body may change a variable that bounds the
loop, so its value is copied on entry. -/
def Bound.limit (k : Nat) : Bound → C.Limit
  | number n => .literal n
  | var x => .copy (limitName k) x

/-- A percent sign in a format string is written twice. -/
def escapePercent (text : String) : String :=
  String.ofList (text.toList.flatMap fun c => if c = '%' then ['%', '%'] else [c])

namespace PrintArg

def format : PrintArg → String
  | text raw => escapePercent raw
  | var _ => "%d"

def name? : PrintArg → Option String
  | text _ => none
  | var x => some x

/-- The one statement that prints all of `args`. -/
def call (args : List PrintArg) : C.Statement :=
  .print (String.join (args.map format)) (args.filterMap name?)

end PrintArg

mutual

/-- The C statements of a statement, when `k` loops come before it. -/
def Statement.lower (k : Nat) : Statement → List C.Statement
  | .declare _ none => []
  | .declare x (some e) | .assign x e => [.assign x.val e]
  | .ifThen c body => [.ifThen c (Statement.lowerAll k body)]
  | .ifElse c body otherwise =>
    [.ifElse c (Statement.lowerAll k body)
      (Statement.lowerAll (k + Statement.loopsAll body) otherwise)]
  | .whileDo c body => [.whileDo c (Statement.lowerAll k body)]
  | .dotimes b body =>
    [.loop (counterName k) (b.val.limit k) (Statement.lowerAll (k + 1) body)]
  | .print first more => [PrintArg.call ((first :: more).map (·.val))]
  | .read x => [.read x.val]

def Statement.lowerAll (k : Nat) : List Statement → List C.Statement
  | [] => []
  | s :: rest => s.lower k ++ Statement.lowerAll (k + s.loops) rest

end

theorem Statement.loopsAll_append (ss rest : List Statement) :
    Statement.loopsAll (ss ++ rest) = Statement.loopsAll ss + Statement.loopsAll rest := by
  induction ss with
  | nil => simp [Statement.loopsAll]
  | cons s ss ih => simp only [List.cons_append, Statement.loopsAll, ih, Nat.add_assoc]

/-- Later statements are numbered on from the loops of the earlier ones. -/
theorem Statement.lowerAll_append (k : Nat) (ss rest : List Statement) :
    Statement.lowerAll k (ss ++ rest) =
      Statement.lowerAll k ss ++ Statement.lowerAll (k + Statement.loopsAll ss) rest := by
  induction ss generalizing k with
  | nil => simp [Statement.lowerAll, Statement.loopsAll]
  | cons s ss ih =>
    simp only [List.cons_append, Statement.lowerAll, Statement.loopsAll, ih, List.append_assoc,
      Nat.add_assoc]

namespace Program

def lines (p : Program) : List C.Line :=
  (C.Layout.ofItems (C.Statement.itemsAll (Statement.lowerAll 0 p.statements))).finish

/-- The C text of a program. -/
def toC (f : C.Format) (p : Program) : String := C.render f p.declarations p.lines

end Program

end BareBones
