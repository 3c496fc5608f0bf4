import BareBones.Syntax.Parse

/-!
What a program must look like, said without the reader. `Grammar.Derives` holds
the productions of the language over terminals, in which names, numbers and
texts count only by their class. `LiteralsFit` and `WellNamed` say what the
grammar cannot: how large a number may be and where a name may stand.
`Statement.tokens` writes a tree out again as the tokens it was read from.
-/

namespace BareBones

/-- What the grammar sees of a token. -/
inductive Terminal where
  | ident
  | number
  | text
  | mark (mark : Punctuation)
  | operator (op : Operator)
  | keyword (word : Keyword)
  | eof
  /-- A newline or unrecognized input, neither of which the grammar mentions. -/
  | foreign
deriving DecidableEq

@[simp] def Token.terminal : Token → Terminal
  | eof => .eof
  | newline => .foreign
  | id _ => .ident
  | number _ => .number
  | str _ => .text
  | unknown _ => .foreign
  | punctuation mark => .mark mark
  | operator op => .operator op
  | keyword word => .keyword word

namespace Grammar

/-- Classes of phrases. `chain` and `arguments` are what may follow the first
factor of an expression and the first argument of a `print`. -/
inductive Phrase where
  | factor
  | chain
  | expr
  | operand
  | condition
  | argument
  | arguments
  | block
  | statement
  | statements
  | program

/-- An optional `!`. -/
def sign (negated : Bool) : List Terminal := if negated then [.operator .not] else []

/-- The terminals that make up a phrase. -/
inductive Derives : Phrase → List Terminal → Prop
  | number : Derives .factor [.number]
  | name : Derives .factor [.ident]
  | group {w : List Terminal} : Derives .expr w →
      Derives .factor (.mark .openParen :: (w ++ [.mark .closeParen]))
  | chainEnd : Derives .chain []
  | chainMore {w v : List Terminal} (op : Arithmetic) : Derives .factor w → Derives .chain v →
      Derives .chain (.operator (.arithmetic op) :: (w ++ v))
  | expr {w v : List Terminal} : Derives .factor w → Derives .chain v → Derives .expr (w ++ v)
  | operandNumber : Derives .operand [.number]
  | operandName : Derives .operand [.ident]
  | simple {w : List Terminal} (n : Bool) : Derives .operand w →
      Derives .condition (sign n ++ w)
  | compare {w v : List Terminal} (n : Bool) (op : Comparison) :
      Derives .operand w → Derives .operand v →
      Derives .condition (sign n ++ (w ++ .operator (.comparison op) :: v))
  | grouped {w : List Terminal} (n : Bool) : Derives .condition w →
      Derives .condition (sign n ++ .mark .openParen :: (w ++ [.mark .closeParen]))
  | groupedThen {w v : List Terminal} (n : Bool) (op : Comparison) :
      Derives .condition w → Derives .condition v →
      Derives .condition (sign n ++ .mark .openParen ::
        (w ++ .mark .closeParen :: .operator (.comparison op) :: v))
  | argumentText : Derives .argument [.text]
  | argumentName : Derives .argument [.ident]
  | argumentsEnd : Derives .arguments []
  | argumentsMore {w v : List Terminal} : Derives .argument w → Derives .arguments v →
      Derives .arguments (.mark .comma :: (w ++ v))
  | block {w : List Terminal} : Derives .statements w →
      Derives .block (.mark .openCurly :: (w ++ [.mark .closeCurly]))
  | declare : Derives .statement [.keyword .let_, .ident, .mark .semicolon]
  | declareValue {w : List Terminal} : Derives .expr w →
      Derives .statement (.keyword .let_ :: .ident :: .operator .assign ::
        (w ++ [.mark .semicolon]))
  | assign {w : List Terminal} : Derives .expr w →
      Derives .statement (.ident :: .operator .assign :: (w ++ [.mark .semicolon]))
  | ifThen {w b : List Terminal} : Derives .condition w → Derives .block b →
      Derives .statement (.keyword .if_ :: .mark .openParen :: (w ++ .mark .closeParen :: b))
  | ifElse {w b o : List Terminal} :
      Derives .condition w → Derives .block b → Derives .block o →
      Derives .statement (.keyword .if_ :: .mark .openParen ::
        (w ++ .mark .closeParen :: (b ++ .keyword .else_ :: o)))
  | whileDo {w b : List Terminal} : Derives .condition w → Derives .block b →
      Derives .statement (.keyword .while_ :: .mark .openParen ::
        (w ++ .mark .closeParen :: b))
  | dotimes {w b : List Terminal} : Derives .operand w → Derives .block b →
      Derives .statement (.keyword .dotimes :: .mark .openParen ::
        (w ++ .mark .closeParen :: b))
  | print {w v : List Terminal} : Derives .argument w → Derives .arguments v →
      Derives .statement (.keyword .print :: .mark .openParen ::
        (w ++ (v ++ [.mark .closeParen, .mark .semicolon])))
  | read : Derives .statement [.keyword .read, .mark .openParen, .ident, .mark .closeParen,
      .mark .semicolon]
  | noStatements : Derives .statements []
  | moreStatements {w v : List Terminal} : Derives .statement w → Derives .statements v →
      Derives .statements (w ++ v)
  | program {w : List Terminal} : Derives .statements w → Derives .program (w ++ [.eof])

end Grammar

/-- The number that decimal digits denote. -/
def decimalValue (digits : String) : Nat := Nat.ofDigitChars 10 digits.toList 0

theorem decimalValue_toString (n : Nat) : decimalValue (toString n) = n := by
  simp [decimalValue]

/-- Every number can be stored in the integers of the language. -/
def LiteralsFit (w : List Token) : Prop := ∀ d, Token.number d ∈ w → decimalValue d ≤ 2147483647

/-- The tokens at `i` and behind it are a `let` and the name `x`. -/
def DeclaresAt (w : List Token) (i : Nat) (x : String) : Prop :=
  w[i]? = some (.keyword .let_) ∧ w[i + 1]? = some (.id x)

structure WellNamed (w : List Token) : Prop where
  /-- No name is declared by two `let`s. -/
  once : ∀ i j x, i < j → DeclaresAt w i x → ¬ DeclaresAt w j x
  /-- A name that does not itself follow a `let` has followed an earlier one. -/
  declared : ∀ i x, w[i]? = some (.id x) →
    (∃ j, j + 1 = i ∧ w[j]? = some (.keyword .let_)) ∨ ∃ j, j + 1 < i ∧ DeclaresAt w j x

/-- The tokens of a source before `eof`, newlines left out. -/
def Source.words (s : Source) : List Token :=
  ((s.tokens.map (·.val)).takeWhile (· ≠ .eof)).filter (· ≠ .newline)

/-- What a token says when numbers are compared by value. -/
def Token.reading : Token → Token ⊕ Nat
  | number digits => .inr (decimalValue digits)
  | t => .inl t

/-! ## Trees written out -/

def Bound.token : Bound → Token
  | number n => n.token
  | var x => .id x

def PrintArg.token : PrintArg → Token
  | text raw => .str raw
  | var x => .id x

/-- `keyword (condition)`. -/
def Condition.guard (k : Keyword) (c : Condition) : List Token :=
  .keyword k :: .openParen :: (c.tokens ++ [.closeParen])

def braced (w : List Token) : List Token := .openCurly :: (w ++ [.closeCurly])

/-- Further arguments of a `print`, each behind its comma. -/
def PrintArg.furtherTokens (args : List (Located PrintArg)) : List Token :=
  args.flatMap fun a => [.comma, a.val.token]

mutual

/-- The source tokens of a statement. -/
def Statement.tokens : Statement → List Token
  | .declare x none => [.keyword .let_, .id x.val, .semicolon]
  | .declare x (some e) => .keyword .let_ :: .id x.val :: .assign :: (e.tokens ++ [.semicolon])
  | .assign x e => .id x.val :: .assign :: (e.tokens ++ [.semicolon])
  | .ifThen c body => c.guard .if_ ++ braced (Statement.tokensAll body)
  | .ifElse c body otherwise =>
    c.guard .if_ ++ braced (Statement.tokensAll body) ++
      .keyword .else_ :: braced (Statement.tokensAll otherwise)
  | .whileDo c body => c.guard .while_ ++ braced (Statement.tokensAll body)
  | .dotimes b body =>
    [.keyword .dotimes, .openParen, b.val.token, .closeParen] ++
      braced (Statement.tokensAll body)
  | .print first more =>
    .keyword .print :: .openParen :: first.val.token ::
      (PrintArg.furtherTokens more ++ [.closeParen, .semicolon])
  | .read x => [.keyword .read, .openParen, .id x.val, .closeParen, .semicolon]

def Statement.tokensAll : List Statement → List Token
  | [] => []
  | s :: rest => s.tokens ++ Statement.tokensAll rest

end

@[simp] theorem Statement.tokensAll_append (ss rest : List Statement) :
    Statement.tokensAll (ss ++ rest) = Statement.tokensAll ss ++ Statement.tokensAll rest := by
  induction ss with
  | nil => rfl
  | cons s ss ih => simp only [List.cons_append, Statement.tokensAll, ih, List.append_assoc]

mutual

theorem Factor.tokensThen_append (f : Factor) (w v : List Token) :
    f.tokensThen (w ++ v) = f.tokensThen w ++ v := by
  cases f with
  | number n s => rfl
  | var x s => rfl
  | group e s =>
    have h := e.tokensThen_append (.closeParen :: w) v
    simpa only [Factor.tokensThen, List.cons_append, List.cons.injEq, true_and] using h

theorem Expr.tokensThen_append (e : Expr) (w v : List Token) :
    e.tokensThen (w ++ v) = e.tokensThen w ++ v := by
  cases e with
  | factor f => exact f.tokensThen_append w v
  | binary left op right =>
    have hr := right.tokensThen_append w v
    have hl := left.tokensThen_append (.arithmetic op :: right.tokensThen w) v
    simp only [Expr.tokensThen, hr]
    exact hl

end

/-- The tokens of one factor. -/
def Factor.tokens (f : Factor) : List Token := f.tokensThen []

theorem Factor.tokensThen_eq (f : Factor) (w : List Token) : f.tokensThen w = f.tokens ++ w :=
  f.tokensThen_append [] w

theorem Expr.tokensThen_eq (e : Expr) (w : List Token) : e.tokensThen w = e.tokens ++ w :=
  e.tokensThen_append [] w

theorem Condition.tokensThen_append (c : Condition) (w v : List Token) :
    c.tokensThen (w ++ v) = c.tokensThen w ++ v := by
  induction c generalizing w with
  | simple n x => cases n <;> rfl
  | compare n x op y => cases n <;> rfl
  | group n c ih =>
    have h := ih (.closeParen :: w)
    cases n <;> simp [Condition.tokensThen, Condition.negation, ← h]
  | groupThen n c op d ihc ihd =>
    have h := ihc (.closeParen :: .comparison op :: d.tokensThen w)
    cases n <;> simp [Condition.tokensThen, Condition.negation, ← h, ihd]

theorem Condition.tokensThen_eq (c : Condition) (w : List Token) :
    c.tokensThen w = c.tokens ++ w :=
  c.tokensThen_append [] w

@[simp] theorem Factor.tokens_number (n : Literal) (s : Span) :
    (Factor.number n s).tokens = [n.token] := rfl

@[simp] theorem Factor.tokens_var (x : String) (s : Span) :
    (Factor.var x s).tokens = [.id x] := rfl

@[simp] theorem Factor.tokens_group (e : Expr) (s : Span) :
    (Factor.group e s).tokens = .openParen :: (e.tokens ++ [.closeParen]) := by
  rw [Factor.tokens, Factor.tokensThen, e.tokensThen_eq]

@[simp] theorem Expr.tokens_factor (f : Factor) : (Expr.factor f).tokens = f.tokens := rfl

@[simp] theorem Expr.tokens_binary (left : Expr) (op : Arithmetic) (right : Factor) :
    (Expr.binary left op right).tokens = left.tokens ++ .arithmetic op :: right.tokens := by
  rw [Expr.tokens, Expr.tokensThen, left.tokensThen_eq]
  rfl

/-- An optional `!`. -/
def Condition.sign (negated : Bool) : List Token := if negated then [.not] else []

theorem Condition.negation_eq (negated : Bool) (w : List Token) :
    Condition.negation negated w = Condition.sign negated ++ w := by
  cases negated <;> rfl

@[simp] theorem Condition.tokens_simple (n : Bool) (x : Operand) :
    (Condition.simple n x).tokens = sign n ++ [x.token] := by
  simp only [tokens, tokensThen, negation_eq]

@[simp] theorem Condition.tokens_compare (n : Bool) (x : Operand) (op : Comparison)
    (y : Operand) :
    (Condition.compare n x op y).tokens = sign n ++ [x.token, .comparison op, y.token] := by
  simp only [tokens, tokensThen, negation_eq]

@[simp] theorem Condition.tokens_group (n : Bool) (c : Condition) :
    (Condition.group n c).tokens = sign n ++ .openParen :: (c.tokens ++ [.closeParen]) := by
  rw [tokens, tokensThen, negation_eq, c.tokensThen_eq]

@[simp] theorem Condition.tokens_groupThen (n : Bool) (c : Condition) (op : Comparison)
    (d : Condition) :
    (Condition.groupThen n c op d).tokens =
      sign n ++ .openParen :: (c.tokens ++ .closeParen :: .comparison op :: d.tokens) := by
  rw [tokens, tokensThen, negation_eq, c.tokensThen_eq]
  rfl

/-! ## Trees are sentences -/

namespace Grammar

theorem Derives.chain_snoc {w v : List Terminal} (op : Arithmetic) (hv : Derives .chain v)
    (hw : Derives .factor w) : Derives .chain (v ++ .operator (.arithmetic op) :: w) := by
  generalize hn : Phrase.chain = n at hv
  induction hv with
  | chainEnd => simpa using Derives.chainMore op hw .chainEnd
  | chainMore op' hf _ _ ih =>
    have h := Derives.chainMore op' hf (ih rfl)
    simpa only [List.cons_append, List.append_assoc] using h
  | _ => cases hn

theorem Derives.expr_snoc {w v : List Terminal} (op : Arithmetic) (hv : Derives .expr v)
    (hw : Derives .factor w) : Derives .expr (v ++ .operator (.arithmetic op) :: w) := by
  cases hv with
  | expr hf hc =>
    rw [List.append_assoc]
    exact .expr hf (hc.chain_snoc op hw)

end Grammar

open Grammar

mutual

theorem Factor.derives (f : Factor) : Derives .factor (f.tokens.map Token.terminal) := by
  cases f with
  | number n s => exact .number
  | var x s => exact .name
  | group e s => simpa using Derives.group e.derives

theorem Expr.derives (e : Expr) : Derives .expr (e.tokens.map Token.terminal) := by
  cases e with
  | factor f => simpa using Derives.expr f.derives .chainEnd
  | binary left op right => simpa using left.derives.expr_snoc op right.derives

end

theorem Operand.derives (x : Operand) : Derives .operand [x.token.terminal] := by
  cases x with
  | number n => exact .operandNumber
  | var x => exact .operandName

@[simp] theorem map_terminal_sign (n : Bool) :
    (Condition.sign n).map Token.terminal = Grammar.sign n := by
  cases n <;> rfl

theorem Condition.derives (c : Condition) : Derives .condition (c.tokens.map Token.terminal) := by
  induction c with
  | simple n x => simpa using Derives.simple n x.derives
  | compare n x op y => simpa using Derives.compare n op x.derives y.derives
  | group n c ih => simpa using Derives.grouped n ih
  | groupThen n c op d ihc ihd => simpa using Derives.groupedThen n op ihc ihd

theorem Bound.derives (b : Bound) : Derives .operand [b.token.terminal] := by
  cases b with
  | number n => exact .operandNumber
  | var x => exact .operandName

theorem PrintArg.derives (a : PrintArg) : Derives .argument [a.token.terminal] := by
  cases a with
  | text raw => exact .argumentText
  | var x => exact .argumentName

theorem PrintArg.further_derives (args : List (Located PrintArg)) :
    Derives .arguments ((PrintArg.furtherTokens args).map Token.terminal) := by
  induction args with
  | nil => exact .argumentsEnd
  | cons a args ih => simpa [furtherTokens] using Derives.argumentsMore a.val.derives ih

theorem braced_derives {w : List Token} (h : Derives .statements (w.map Token.terminal)) :
    Derives .block ((braced w).map Token.terminal) := by
  simpa [braced] using Derives.block h

mutual

theorem Statement.derives (s : Statement) : Derives .statement (s.tokens.map Token.terminal) := by
  cases s with
  | declare x value =>
    cases value with
    | none => exact .declare
    | some e => simpa [Statement.tokens] using Derives.declareValue e.derives
  | assign x e => simpa [Statement.tokens] using Derives.assign e.derives
  | ifThen c body =>
    have hb := braced_derives (Statement.tokensAll_derives body)
    simpa [Statement.tokens, Condition.guard] using Derives.ifThen c.derives hb
  | ifElse c body otherwise =>
    have hb := braced_derives (Statement.tokensAll_derives body)
    have ho := braced_derives (Statement.tokensAll_derives otherwise)
    simpa [Statement.tokens, Condition.guard] using Derives.ifElse c.derives hb ho
  | whileDo c body =>
    have hb := braced_derives (Statement.tokensAll_derives body)
    simpa [Statement.tokens, Condition.guard] using Derives.whileDo c.derives hb
  | dotimes b body =>
    have hb := braced_derives (Statement.tokensAll_derives body)
    simpa [Statement.tokens] using Derives.dotimes b.val.derives hb
  | print first more =>
    have hm := PrintArg.further_derives more
    simpa [Statement.tokens] using Derives.print first.val.derives hm
  | read x => exact .read

/-- Whatever tree there is, its tokens are statements of the grammar. -/
theorem Statement.tokensAll_derives (ss : List Statement) :
    Derives .statements ((Statement.tokensAll ss).map Token.terminal) := by
  cases ss with
  | nil => exact .noStatements
  | cons s rest =>
    have hr := Statement.tokensAll_derives rest
    simpa [Statement.tokensAll] using Derives.moreStatements s.derives hr

end

end BareBones
