import BareBones.Syntax

/-!
The value of an expression: factors are combined from left to right whatever the
operators are, and a group is what its parentheses hold. The shape of an expression
is what is left of it without its numbers and names.
-/

namespace BareBones

namespace Arithmetic

def isMultiplicative : Arithmetic → Bool
  | add | sub => false
  | mul | div | mod => true

/-- Exact integers. `/` and `%` cut toward zero and have no result for the divisor
zero. -/
def apply : Arithmetic → Int → Int → Option Int
  | add, x, y => some (x + y)
  | sub, x, y => some (x - y)
  | mul, x, y => some (x * y)
  | div, x, y => if y = 0 then none else some (x.tdiv y)
  | mod, x, y => if y = 0 then none else some (x.tmod y)

/-- Both operands need a value. -/
def combine (op : Arithmetic) (x y : Option Int) : Option Int :=
  x.bind fun a => y.bind (op.apply a)

@[simp] theorem combine_some (op : Arithmetic) (x y : Int) :
    op.combine (some x) (some y) = op.apply x y := rfl

theorem combine_eq_some {op : Arithmetic} {x y : Option Int} {z : Int}
    (h : op.combine x y = some z) : ∃ a b, x = some a ∧ y = some b ∧ op.apply a b = some z := by
  obtain ⟨a, ha, hy⟩ := Option.bind_eq_some_iff.mp h
  obtain ⟨b, hb, hz⟩ := Option.bind_eq_some_iff.mp hy
  exact ⟨a, b, ha, hb, hz⟩

theorem tmod_of_natAbs_lt {x y : Int} (h : x.natAbs < y.natAbs) : x.tmod y = x := by
  have hquot : x.tdiv y = 0 := by
    rw [← Int.natAbs_eq_zero, Int.natAbs_tdiv]
    exact Nat.div_eq_of_lt h
  rw [Int.tmod_def, hquot, Int.mul_zero, Int.sub_zero]

/-- A right operand that changes no left operand up to `bound`. -/
def neutral (bound : Nat) : Arithmetic → Int
  | add | sub => 0
  | mul | div => 1
  | mod => bound + 1

theorem apply_neutral (op : Arithmetic) {x : Int} {bound : Nat} (h : x.natAbs ≤ bound) :
    op.apply x (op.neutral bound) = some x := by
  cases op with
  | add | sub | mul | div => simp [apply, neutral]
  | mod =>
    have hne : (bound : Int) + 1 ≠ 0 := by omega
    have hlt : x.natAbs < ((bound : Int) + 1).natAbs := by omega
    rw [apply, neutral, if_neg hne, tmod_of_natAbs_lt hlt]

end Arithmetic

mutual

def Factor.value (store : String → Int) : Factor → Option Int
  | .number n _ => some n.value
  | .var x _ => some (store x)
  | .group e _ => e.value store

def Expr.value (store : String → Int) : Expr → Option Int
  | .factor f => f.value store
  | .binary left op right => op.combine (left.value store) (right.value store)

end

/-- The operators and parentheses of an expression. -/
inductive Shape where
  | operand
  | group (inner : Shape)
  | binary (left : Shape) (op : Arithmetic) (right : Shape)
deriving DecidableEq

namespace Shape

/-- No `+` or `-` in the chain. -/
def isProduct : Shape → Bool
  | operand | group _ => true
  | binary left op _ => op.isMultiplicative && left.isProduct

/-- No `*`, `/` or `%` behind a `+` or `-`, in the chain and in all its groups. -/
def ordered : Shape → Bool
  | operand => true
  | group inner => inner.ordered
  | binary left op right =>
    (!op.isMultiplicative || left.isProduct) && left.ordered && right.ordered

theorem ordered_binary_iff {left : Shape} {op : Arithmetic} {right : Shape} :
    (binary left op right).ordered = true ↔
      (op.isMultiplicative = true → left.isProduct = true) ∧ left.ordered = true ∧
        right.ordered = true := by
  rw [ordered]
  cases op.isMultiplicative <;> simp [and_assoc]

end Shape

mutual

def Factor.shape : Factor → Shape
  | .number .. | .var .. => .operand
  | .group e _ => .group e.shape

def Expr.shape : Expr → Shape
  | .factor f => f.shape
  | .binary left op right => .binary left.shape op right.shape

end

end BareBones
