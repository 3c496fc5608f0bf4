import BareBones.Proofs.C.Reference

/-!
The C tokens of a program, row by row, and the depth of their braces. A row is a
statement with its semicolon, the header of a block with its opening brace, or a
closing brace (`IsRow`). The rows of a tree, one behind the other, are its tokens
(`Statement.flatten_rowsAll`).
-/

namespace BareBones

open C (Lexeme)
open C.Lexeme (parens braces bang forHeader)

namespace C

/-- The number of braces that are opened and not closed again. -/
def depth (ls : List Lexeme) : Int := ls.count (.mark "\x7b") - ls.count (.mark "\x7d")

/-- No brace is among the tokens; one within a text is none. -/
def Braceless (ls : List Lexeme) : Prop := .mark "\x7b" ∉ ls ∧ .mark "\x7d" ∉ ls

/-- What may stand on a line of its own. -/
def IsRow (ls : List Lexeme) : Prop :=
  ls = [.mark "\x7d"] ∨
    ∃ ms, Braceless ms ∧ ms ≠ [] ∧ (ls = ms ++ [.mark ";"] ∨ ls = ms ++ [.mark "\x7b"])

/-- A block as rows: its header, the rows inside and the brace that ends it. -/
def blockRows (header : List Lexeme) (body : List (List Lexeme)) : List (List Lexeme) :=
  (header ++ [.mark "\x7b"]) :: (body ++ [[.mark "\x7d"]])

def declarationRow (x : String) : List Lexeme := [.word "int", .word x, .mark ";"]

@[simp] theorem depth_nil : depth [] = 0 := rfl

@[simp] theorem depth_append (ls ms : List Lexeme) : depth (ls ++ ms) = depth ls + depth ms := by
  simp only [depth, List.count_append]
  omega

theorem depth_cons (l : Lexeme) (ls : List Lexeme) : depth (l :: ls) = depth [l] + depth ls :=
  depth_append [l] ls

@[simp] theorem depth_open : depth [.mark "\x7b"] = 1 := by decide

@[simp] theorem depth_close : depth [.mark "\x7d"] = -1 := by decide

theorem Braceless.depth {ls : List Lexeme} (h : Braceless ls) : C.depth ls = 0 := by
  rw [C.depth, List.count_eq_zero_of_not_mem h.1, List.count_eq_zero_of_not_mem h.2]
  rfl

@[simp] theorem braceless_nil : Braceless [] := ⟨by simp, by simp⟩

@[simp] theorem braceless_append (ls ms : List Lexeme) :
    Braceless (ls ++ ms) ↔ Braceless ls ∧ Braceless ms := by
  simp only [Braceless, List.mem_append, not_or]
  exact and_and_and_comm

@[simp] theorem braceless_cons (l : Lexeme) (ls : List Lexeme) :
    Braceless (l :: ls) ↔ (l ≠ .mark "\x7b" ∧ l ≠ .mark "\x7d") ∧ Braceless ls := by
  simp only [Braceless, List.mem_cons, not_or, ne_eq, eq_comm (a := l)]
  exact and_and_and_comm

theorem Braceless.mono {ls ms : List Lexeme} (h : Braceless ms) (hs : ls ⊆ ms) : Braceless ls :=
  ⟨fun hl => h.1 (hs hl), fun hl => h.2 (hs hl)⟩

theorem Braceless.tail {l : Lexeme} {ls : List Lexeme} (h : Braceless (l :: ls)) : Braceless ls :=
  ((braceless_cons l ls).mp h).2

/-! ## Balanced tokens -/

/-- Every brace that is closed has been opened, and the other way around. -/
structure Balanced (ls : List Lexeme) : Prop where
  closed : depth ls = 0
  nonneg : ∀ pre, pre <+: ls → 0 ≤ depth pre

theorem prefix_append_cases {pre ls ms : List Lexeme} (h : pre <+: ls ++ ms) :
    pre <+: ls ∨ ∃ post, post <+: ms ∧ pre = ls ++ post := by
  rcases List.prefix_or_prefix_of_prefix h (List.prefix_append ls ms) with h' | ⟨post, rfl⟩
  · exact Or.inl h'
  · exact Or.inr ⟨post, (List.prefix_append_right_inj ls).mp h, rfl⟩

namespace Balanced

theorem of_braceless {ls : List Lexeme} (h : Braceless ls) : Balanced ls where
  closed := h.depth
  nonneg pre hpre := by
    have hzero := (h.mono hpre.subset).depth
    omega

theorem append {ls ms : List Lexeme} (hl : Balanced ls) (hm : Balanced ms) :
    Balanced (ls ++ ms) where
  closed := by
    have hclosed := hl.closed
    have hclosed' := hm.closed
    rw [depth_append]
    omega
  nonneg pre hpre := by
    rcases prefix_append_cases hpre with hpre | ⟨post, hpost, rfl⟩
    · exact hl.nonneg pre hpre
    · have hclosed := hl.closed
      have hnonneg := hm.nonneg post hpost
      rw [depth_append]
      omega

/-- Inside of its braces a block is at least one deep. -/
theorem depth_braces {ls pre post : List Lexeme} (h : Balanced ls)
    (heq : braces ls = pre ++ post) :
    pre = [] ∨ 1 ≤ depth pre ∧ post ≠ [] ∨ depth pre = 0 ∧ post = [] := by
  have hpre : pre <+: .mark "\x7b" :: ls ++ [.mark "\x7d"] := ⟨post, heq.symm⟩
  rcases prefix_append_cases hpre with hpre | ⟨last, hlast, rfl⟩
  · cases pre with
    | nil => exact Or.inl rfl
    | cons l pre =>
      obtain ⟨rfl, htail⟩ := List.cons_prefix_cons.mp hpre
      have hnonneg := h.nonneg pre htail
      refine Or.inr (Or.inl ⟨?_, ?_⟩)
      · rw [depth_cons, depth_open]
        omega
      · rintro rfl
        have hlen := congrArg List.length heq
        have hle := htail.length_le
        simp only [braces, List.length_cons, List.length_append, List.append_nil] at hlen hle
        omega
  · have hclosed := h.closed
    rcases List.prefix_cons_iff.mp hlast with rfl | ⟨more, rfl, hmore⟩
    · refine Or.inr (Or.inl ⟨?_, ?_⟩)
      · rw [depth_append, depth_cons, depth_open, depth_nil]
        omega
      · rintro rfl
        simp [braces] at heq
    · obtain rfl := List.prefix_nil.mp hmore
      refine Or.inr (Or.inr ⟨?_, ?_⟩)
      · rw [depth_append, depth_cons, depth_open, depth_close]
        omega
      · simpa [braces] using heq

theorem braces {ls : List Lexeme} (h : Balanced ls) : Balanced (braces ls) where
  closed := by
    have hclosed := h.closed
    rw [Lexeme.braces, depth_cons, depth_append, depth_open, depth_close]
    omega
  nonneg pre := by
    rintro ⟨post, heq⟩
    rcases h.depth_braces heq.symm with rfl | ⟨hpre, -⟩ | ⟨hpre, -⟩
    · simp
    · omega
    · omega

/-- A block behind tokens without braces is closed by its last brace and by no other. -/
theorem closed_iff {head body pre post : List Lexeme} (hh : Braceless head)
    (hb : Balanced body) (heq : head ++ Lexeme.braces body = pre ++ .mark "\x7d" :: post) :
    depth (pre ++ [.mark "\x7d"]) = 0 ↔ .mark "\x7d" ∉ post := by
  have hpre : pre ++ [.mark "\x7d"] <+: head ++ Lexeme.braces body :=
    ⟨post, by rw [heq, List.append_assoc]; rfl⟩
  rcases prefix_append_cases hpre with hhead | ⟨inner, -, hinner⟩
  · exact absurd (hhead.subset (by simp)) hh.2
  · have hbraces : Lexeme.braces body = inner ++ post := by
      rw [← List.append_right_inj head, heq, ← List.append_assoc, ← hinner, List.append_assoc]
      rfl
    have hdepth : depth (pre ++ [.mark "\x7d"]) = depth inner := by
      rw [hinner, depth_append, hh.depth]
      omega
    rcases hb.depth_braces hbraces with rfl | ⟨hone, hpost⟩ | ⟨hzero, rfl⟩
    · have hlast := congrArg List.getLast? hinner
      rw [List.append_nil, List.getLast?_concat] at hlast
      exact absurd (List.mem_of_getLast? hlast.symm) hh.2
    · -- the last token of the block is behind this one
      have hlast : (inner ++ post).getLast? = some (.mark "\x7d") := by
        rw [← hbraces, Lexeme.braces, ← List.cons_append, List.getLast?_concat]
      rw [List.getLast?_append_of_ne_nil _ hpost] at hlast
      have hmem := List.mem_of_getLast? hlast
      constructor
      · intro hclosed
        omega
      · intro hnone
        exact absurd hmem hnone
    · simp [hdepth, hzero]

end Balanced

end C

open C (Braceless blockRows)

/-! ## The rows of a tree -/

mutual

/-- The rows of a statement, when `k` loops come before it. -/
def Statement.rows (k : Nat) : Statement → List (List Lexeme)
  | .declare _ none => []
  | .declare x (some e) | .assign x e =>
    [.word x.val :: .mark "=" :: (e.lexemes ++ [.mark ";"])]
  | .ifThen c body => blockRows (.word "if" :: parens c.lexemes) (Statement.rowsAll k body)
  | .ifElse c body otherwise =>
    blockRows (.word "if" :: parens c.lexemes) (Statement.rowsAll k body) ++
      blockRows [.word "else"] (Statement.rowsAll (k + Statement.loopsAll body) otherwise)
  | .whileDo c body => blockRows (.word "while" :: parens c.lexemes) (Statement.rowsAll k body)
  | .dotimes b body => blockRows (b.val.lexemes k) (Statement.rowsAll (k + 1) body)
  | .print first more => [PrintArg.lexemes ((first :: more).map (·.val)) ++ [.mark ";"]]
  | .read x =>
    [.word "scanf" :: parens [.text "%d", .mark ",", .mark "&", .word x.val] ++ [.mark ";"]]

def Statement.rowsAll (k : Nat) : List Statement → List (List Lexeme)
  | [] => []
  | s :: rest => s.rows k ++ Statement.rowsAll (k + s.loops) rest

end

theorem C.flatten_blockRows (header : List Lexeme) (body : List (List Lexeme)) :
    (blockRows header body).flatten = header ++ braces body.flatten := by
  simp [blockRows, braces]

mutual

theorem Statement.flatten_rows (s : Statement) (k : Nat) : (s.rows k).flatten = s.lexemes k := by
  cases s with
  | declare x value =>
    cases value with
    | none => rfl
    | some e => simp [Statement.rows, Statement.lexemes]
  | assign x e => simp [Statement.rows, Statement.lexemes]
  | ifThen c body =>
    have hbody := Statement.flatten_rowsAll body k
    simp [Statement.rows, Statement.lexemes, C.flatten_blockRows, hbody]
  | ifElse c body otherwise =>
    have hbody := Statement.flatten_rowsAll body k
    have hother := Statement.flatten_rowsAll otherwise (k + Statement.loopsAll body)
    simp [Statement.rows, Statement.lexemes, C.flatten_blockRows, hbody, hother]
  | whileDo c body =>
    have hbody := Statement.flatten_rowsAll body k
    simp [Statement.rows, Statement.lexemes, C.flatten_blockRows, hbody]
  | dotimes b body =>
    have hbody := Statement.flatten_rowsAll body (k + 1)
    simp [Statement.rows, Statement.lexemes, C.flatten_blockRows, hbody]
  | print first more => simp [Statement.rows, Statement.lexemes]
  | read x => simp [Statement.rows, Statement.lexemes]

theorem Statement.flatten_rowsAll (ss : List Statement) (k : Nat) :
    (Statement.rowsAll k ss).flatten = Statement.lexemesAll k ss := by
  cases ss with
  | nil => rfl
  | cons s rest =>
    rw [Statement.rowsAll, List.flatten_append, s.flatten_rows,
      Statement.flatten_rowsAll rest, Statement.lexemesAll]

end

/-- The rows of a program behind its `#include`: the header of `main`, one declaration
for each declared name, the statements and the last brace. -/
def Program.rows (p : Program) : List (List Lexeme) :=
  blockRows ([.word "int", .word "main"] ++ parens [.word "void"])
    (p.declarations.map C.declarationRow ++ Statement.rowsAll 0 p.statements)

theorem Program.flatten_rows (p : Program) : p.rows.flatten = p.lexemes := by
  rw [Program.rows, C.flatten_blockRows, List.flatten_append, Statement.flatten_rowsAll,
    Program.lexemes, ← List.flatMap_def]
  rfl

/-! ## Tokens without braces -/

theorem Arithmetic.mark_braceless (op : Arithmetic) :
    op.mark ≠ .mark "\x7b" ∧ op.mark ≠ .mark "\x7d" := by
  cases op <;> decide

theorem Comparison.mark_braceless (op : Comparison) :
    op.mark ≠ .mark "\x7b" ∧ op.mark ≠ .mark "\x7d" := by
  cases op <;> decide

theorem C.braceless_declarations (xs : List String) :
    Braceless (xs.map declarationRow).flatten := by
  induction xs with
  | nil => simp
  | cons x xs ih => simpa [declarationRow] using ih

theorem C.Braceless.parens {ls : List Lexeme} (h : Braceless ls) : Braceless (parens ls) := by
  simp [Lexeme.parens, h]

mutual

theorem Factor.braceless (f : Factor) : Braceless f.lexemes := by
  cases f with
  | number n s => simp [Factor.lexemes]
  | var x s => simp [Factor.lexemes]
  | group e s => exact e.braceless.parens

theorem Expr.braceless (e : Expr) : Braceless e.lexemes := by
  cases e with
  | factor f => exact f.braceless
  | binary left op right =>
    have hl := left.braceless
    have hr := right.braceless
    rw [Expr.lexemes, C.braceless_append, C.braceless_cons]
    exact ⟨hl, op.mark_braceless, hr⟩

end

theorem Operand.braceless (x : Operand) : Braceless [x.lexeme] := by
  cases x <;> simp [Operand.lexeme]

theorem C.braceless_bang (n : Bool) : Braceless (bang n) := by
  cases n <;> simp [bang]

theorem Condition.braceless (c : Condition) : Braceless c.lexemes := by
  induction c with
  | simple n x =>
    rw [lexemes, C.braceless_append]
    exact ⟨C.braceless_bang n, x.braceless⟩
  | compare n x op y =>
    have hx := x.braceless
    have hy := y.braceless
    simp only [C.braceless_cons] at hx hy
    simp only [lexemes, C.braceless_append, C.braceless_cons]
    exact ⟨C.braceless_bang n, hx.1, op.mark_braceless, hy⟩
  | group n c ih =>
    rw [lexemes, C.braceless_append]
    exact ⟨C.braceless_bang n, ih.parens⟩
  | groupThen n c op d ihc ihd =>
    rw [lexemes, C.braceless_append, C.braceless_append, C.braceless_cons]
    exact ⟨⟨C.braceless_bang n, ihc.parens⟩, op.mark_braceless, ihd⟩

theorem Bound.braceless (b : Bound) (k : Nat) : Braceless (b.lexemes k) := by
  cases b <;> simp [Bound.lexemes, forHeader, Lexeme.parens]

theorem PrintArg.braceless (args : List PrintArg) : Braceless (PrintArg.lexemes args) := by
  have hvalues : Braceless (args.flatMap valueLexemes) := by
    induction args with
    | nil => simp
    | cons a args ih =>
      rw [List.flatMap_cons, C.braceless_append]
      refine ⟨?_, ih⟩
      cases a <;> simp [valueLexemes]
  simp [PrintArg.lexemes, Lexeme.parens, hvalues]

end BareBones
