import BareBones.C.Layout
import BareBones.Syntax

/-!
The C statements that programs are compiled to, and the pieces and boundaries
each of them is laid out from. Expressions and conditions are written with the
tokens of the program they come from.
-/

namespace BareBones.C

/-- What the counter of a loop is compared with. -/
inductive Limit where
  | literal (value : Literal)
  /-- A variable of the loop itself that holds the value of `bound` on entry. -/
  | copy (name bound : String)
deriving DecidableEq

inductive Statement where
  | assign (target : String) (value : Expr)
  | ifThen (condition : Condition) (body : List Statement)
  | ifElse (condition : Condition) (body otherwise : List Statement)
  | whileDo (condition : Condition) (body : List Statement)
  /-- Counts up from zero by one while the counter is below the limit. -/
  | loop (counter : String) (limit : Limit) (body : List Statement)
  | print (format : String) (args : List String)
  | read (target : String)

def Limit.header (counter : String) : Limit → Piece
  | literal n => .loop counter n.numeral none
  | copy name bound => .loop counter bound (some name)

def tokenItems (ts : List Token) : List Item := ts.map fun t => .piece (.token t)

/-- `keyword (condition)`. -/
def conditionHeader (k : Keyword) (c : Condition) : List Item :=
  tokenItems (.keyword k :: .openParen :: c.tokensThen [.closeParen])

/-- Items in a block of their own. -/
def block (body : List Item) : List Item := .beginBlock :: body ++ [.endBlock]

mutual

def Statement.items : Statement → List Item
  | .assign x e => tokenItems (.id x :: .assign :: e.tokens) ++ [.endStatement]
  | .ifThen c body => conditionHeader .if_ c ++ block (Statement.itemsAll body)
  | .ifElse c body otherwise =>
    conditionHeader .if_ c ++ block (Statement.itemsAll body) ++
      tokenItems [.keyword .else_] ++ block (Statement.itemsAll otherwise)
  | .whileDo c body => conditionHeader .while_ c ++ block (Statement.itemsAll body)
  | .loop counter limit body =>
    .piece (limit.header counter) :: block (Statement.itemsAll body)
  | .print format args => [.piece (.print format args), .endStatement]
  | .read x => [.piece (.read x), .endStatement]

def Statement.itemsAll : List Statement → List Item
  | [] => []
  | s :: rest => s.items ++ Statement.itemsAll rest

end

@[simp] theorem tokenItems_append (ts us : List Token) :
    tokenItems (ts ++ us) = tokenItems ts ++ tokenItems us :=
  List.map_append

@[simp] theorem Statement.itemsAll_append (ss rest : List Statement) :
    Statement.itemsAll (ss ++ rest) = Statement.itemsAll ss ++ Statement.itemsAll rest := by
  induction ss with
  | nil => rfl
  | cons s ss ih => simp only [List.cons_append, Statement.itemsAll, ih, List.append_assoc]

end BareBones.C
