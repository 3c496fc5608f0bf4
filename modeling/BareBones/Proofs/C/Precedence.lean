import BareBones.Proofs.Arithmetic
import BareBones.Proofs.C.Lines

/-!
How C groups the operators of an expression: `*`, `/` and `%` bind tighter than
`+` and `-`, and each kind groups to the left. `Parses` is the grammar; a list of
tokens has at most one reading by it (`Parses.unique`), and the tokens that are
written for an expression have exactly the one that `Expr.grouped` builds.
-/

namespace BareBones

namespace C

/-- A fully parenthesized expression. -/
inductive Grouping where
  | number (digits : String)
  | name (x : String)
  | binary (op : Arithmetic) (left right : Grouping)
deriving DecidableEq

inductive Level where
  | primary
  | product
  | sum

/-- The tokens are an expression of the level, and group to the reading. -/
inductive Parses : Level → List Lexeme → Grouping → Prop
  | number (d : String) : Parses .primary [.number d] (.number d)
  | name (x : String) : Parses .primary [.word x] (.name x)
  | group {w : List Lexeme} {r : Grouping} : Parses .sum w r →
      Parses .primary (Lexeme.parens w) r
  | factor {w : List Lexeme} {r : Grouping} : Parses .primary w r → Parses .product w r
  | multiply {w v : List Lexeme} {l r : Grouping} {op : Arithmetic} :
      op.isMultiplicative = true → Parses .product w l → Parses .primary v r →
      Parses .product (w ++ op.mark :: v) (.binary op l r)
  | term {w : List Lexeme} {r : Grouping} : Parses .product w r → Parses .sum w r
  | add {w v : List Lexeme} {l r : Grouping} {op : Arithmetic} :
      op.isMultiplicative = false → Parses .sum w l → Parses .product v r →
      Parses .sum (w ++ op.mark :: v) (.binary op l r)

/-! ## One reading at most -/

/-- A left operand that waits for its right one. -/
abbrev Waiting := Option (Grouping × Arithmetic)

def Waiting.join : Waiting → Grouping → Grouping
  | none, r => r
  | some (l, op), r => .binary op l r

/-- A reader that takes tokens from left to right. A sum and a product may wait for
their right operands, `last` is the product that was read last, and the waiting
operands around open parentheses are kept in `outer`. -/
structure Reader where
  sum : Waiting := none
  product : Waiting := none
  last : Option Grouping := none
  outer : List (Waiting × Waiting) := []

namespace Reader

def operand (s : Reader) (r : Grouping) : Reader :=
  { s with product := none, last := some (s.product.join r) }

def operator (s : Reader) (op : Arithmetic) : Option Reader :=
  s.last.map fun t =>
    if op.isMultiplicative then { s with product := some (t, op), last := none }
    else { s with sum := some (s.sum.join t, op), last := none }

def close (s : Reader) : Option Reader :=
  match s.last, s.outer with
  | some t, (sum, product) :: outer =>
    some (operand { sum, product, outer } (s.sum.join t))
  | _, _ => none

def step (s : Reader) : Lexeme → Option Reader
  | .number d => some (s.operand (.number d))
  | .word x => some (s.operand (.name x))
  | .mark "(" => some { outer := (s.sum, s.product) :: s.outer }
  | .mark ")" => s.close
  | .mark "+" => s.operator .add
  | .mark "-" => s.operator .sub
  | .mark "*" => s.operator .mul
  | .mark "/" => s.operator .div
  | .mark "%" => s.operator .mod
  | _ => none

def run (s : Reader) : List Lexeme → Option Reader
  | [] => some s
  | l :: ls => (s.step l).bind (·.run ls)

theorem run_append (s : Reader) (w v : List Lexeme) :
    s.run (w ++ v) = (s.run w).bind (·.run v) := by
  induction w generalizing s with
  | nil => rfl
  | cons l w ih =>
    simp only [List.cons_append, run]
    cases s.step l with
    | none => rfl
    | some t => exact ih t

theorem step_mark (s : Reader) (op : Arithmetic) : s.step op.mark = s.operator op := by
  cases op <;> rfl

/-- What the reader makes of the tokens of an expression. -/
def Gets : Level → List Lexeme → Grouping → Prop
  | .primary, w, r => ∀ s : Reader, s.run w = some (s.operand r)
  | .product, w, r => ∀ s : Reader, s.product = none → s.run w = some (s.operand r)
  | .sum, w, r => ∀ s : Reader, s.sum = none → s.product = none →
      ∃ l t, s.run w = some { s with sum := l, last := some t } ∧ l.join t = r

end Reader

open Reader in
theorem Parses.gets {n : Level} {w : List Lexeme} {r : Grouping} (h : Parses n w r) :
    Gets n w r := by
  induction h with
  | number d => exact fun s => rfl
  | name x => exact fun s => rfl
  | group _ ih =>
    intro s
    obtain ⟨l, t, hrun, rfl⟩ := ih { outer := (s.sum, s.product) :: s.outer } rfl rfl
    rw [Lexeme.parens, run, step, Option.bind_some, run_append, hrun]
    rfl
  | factor _ ih => exact fun s _ => ih s
  | @multiply w v l r op hop _ _ ihl ihr =>
    intro s hs
    rw [run_append, ihl s hs, Option.bind_some, run, step_mark]
    simp only [operator, operand, hs, hop, if_true, Option.map_some, Option.bind_some]
    rw [ihr]
    rfl
  | term _ ih =>
    intro s hsum hproduct
    refine ⟨none, _, ?_, rfl⟩
    rw [ih s hproduct, operand, hproduct]
    simp [Waiting.join, hsum]
  | @add w v l r op hop _ _ ihl ihr =>
    intro s hsum hproduct
    obtain ⟨l', t, hrun, rfl⟩ := ihl s hsum hproduct
    refine ⟨some (l'.join t, op), r, ?_, rfl⟩
    rw [run_append, hrun, Option.bind_some, run, step_mark]
    simp only [operator, hop, Option.map_some, Option.bind_some, Bool.false_eq_true, if_false]
    rw [ihr { s with sum := some (l'.join t, op), last := none } hproduct]
    simp [operand, hproduct, Waiting.join]

/-- An expression groups in one way only. -/
theorem Parses.unique {w : List Lexeme} {r r' : Grouping} (h : Parses .sum w r)
    (h' : Parses .sum w r') : r = r' := by
  obtain ⟨l, t, hrun, rfl⟩ := h.gets {} rfl rfl
  obtain ⟨l', t', hrun', rfl⟩ := h'.gets {} rfl rfl
  rw [hrun, Option.some.injEq] at hrun'
  cases hrun'
  rfl

end C

/-! ## The tokens of a tree -/

open C

mutual

/-- How C groups a factor. -/
def Factor.grouped : Factor → Grouping
  | .number n _ => .number (toString n.value)
  | .var x _ => .name x
  | .group e _ => e.parts.1.join e.parts.2

/-- How C groups an expression: the sum that waits for its last summand, and this
summand. -/
def Expr.parts : Expr → Waiting × Grouping
  | .factor f => (none, f.grouped)
  | .binary left op right =>
    if op.isMultiplicative then (left.parts.1, .binary op left.parts.2 right.grouped)
    else (some (left.parts.1.join left.parts.2, op), right.grouped)

end

def Expr.grouped (e : Expr) : Grouping := e.parts.1.join e.parts.2

theorem Expr.parts_factor (f : Factor) : (Expr.factor f).parts = (none, f.grouped) := by
  rw [Expr.parts]

theorem Expr.parts_multiply (left : Expr) {op : Arithmetic} (right : Factor)
    (h : op.isMultiplicative = true) :
    (Expr.binary left op right).parts =
      (left.parts.1, .binary op left.parts.2 right.grouped) := by
  rw [Expr.parts, if_pos h]

theorem Expr.parts_add (left : Expr) {op : Arithmetic} (right : Factor)
    (h : op.isMultiplicative = false) :
    (Expr.binary left op right).parts = (some (left.grouped, op), right.grouped) := by
  rw [Expr.parts, if_neg (by simp [h])]
  rfl

/-- A last summand and what comes before it. -/
def Summands (w : List Lexeme) : Waiting × Grouping → Prop
  | (none, t) => Parses .product w t
  | (some (l, op), t) => ∃ u v, w = u ++ op.mark :: v ∧ op.isMultiplicative = false ∧
      Parses .sum u l ∧ Parses .product v t

theorem Summands.parses {w : List Lexeme} {p : Waiting × Grouping} (h : Summands w p) :
    Parses .sum w (p.1.join p.2) := by
  obtain ⟨_ | ⟨l, op⟩, t⟩ := p
  · exact .term h
  · obtain ⟨u, v, rfl, hop, hu, hv⟩ := h
    exact .add hop hu hv

theorem Summands.multiply {w v : List Lexeme} {p : Waiting × Grouping} {r : Grouping}
    {op : Arithmetic} (h : Summands w p) (hop : op.isMultiplicative = true)
    (hr : Parses .primary v r) : Summands (w ++ op.mark :: v) (p.1, .binary op p.2 r) := by
  obtain ⟨_ | ⟨l, o⟩, t⟩ := p
  · exact Parses.multiply hop h hr
  · obtain ⟨u, u', rfl, ho, hu, hu'⟩ := h
    exact ⟨u, u' ++ op.mark :: v, by simp, ho, hu, Parses.multiply hop hu' hr⟩

mutual

theorem Factor.parses (f : Factor) : Parses .primary f.lexemes f.grouped := by
  cases f with
  | number n s => exact .number _
  | var x s => exact .name x
  | group e s =>
    rw [Factor.lexemes, Factor.grouped]
    exact .group e.summands.parses

theorem Expr.summands (e : Expr) : Summands e.lexemes e.parts := by
  cases e with
  | factor f =>
    rw [Expr.lexemes, Expr.parts]
    exact .factor f.parses
  | binary left op right =>
    rw [Expr.lexemes]
    cases hop : op.isMultiplicative with
    | true =>
      rw [Expr.parts_multiply left right hop]
      exact left.summands.multiply hop right.parses
    | false =>
      rw [Expr.parts_add left right hop]
      exact ⟨_, _, rfl, hop, left.summands.parses, .factor right.parses⟩

end

/-- The C tokens that are written for an expression. -/
def Expr.emitted (e : Expr) : List Lexeme := e.tokens.map Token.toLexeme

/-- C groups them in one way. -/
theorem Expr.parses_emitted_iff (e : Expr) (r : Grouping) :
    Parses .sum e.emitted r ↔ r = e.grouped := by
  rw [Expr.emitted, e.map_toLexeme]
  constructor
  · intro h
    exact h.unique e.summands.parses
  · rintro rfl
    exact e.summands.parses

end BareBones
