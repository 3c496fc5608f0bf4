import BareBones.Proofs.C.Occurrences
import BareBones.Proofs.C.StringLiteral
import BareBones.Proofs.Literals

/-!
Numbers from the source to the C text. A tree has the numbers of its source in their
order (`Source.literals_eq`), and the C text has the numerals of these numbers, with a
zero for each loop to count from (`Program.digits_body`). A numeral begins with a zero
only if it is one, so C does not take it for an octal number
(`Literal.integerConstant?_numeral`).
-/

namespace BareBones

open C (Lexeme)
open C.Lexeme (parens braces bang forHeader)

/-! ## The numbers of a tree -/

mutual

/-- The numbers of a factor, from left to right. -/
def Factor.literals : Factor → List Literal
  | .number n _ => [n]
  | .var _ _ => []
  | .group e _ => e.literals

def Expr.literals : Expr → List Literal
  | .factor f => f.literals
  | .binary left _ right => left.literals ++ right.literals

end

def Operand.literals : Operand → List Literal
  | number n => [n]
  | var _ => []

def Condition.literals : Condition → List Literal
  | simple _ x => x.literals
  | compare _ x _ y => x.literals ++ y.literals
  | group _ c => c.literals
  | groupThen _ c _ d => c.literals ++ d.literals

def Bound.literals : Bound → List Literal
  | number n => [n]
  | var _ => []

mutual

/-- The numbers of a statement in their order, with `none` for the zero that a loop
counts from. -/
def Statement.constants : Statement → List (Option Literal)
  | .declare _ none => []
  | .declare _ (some e) | .assign _ e => e.literals.map some
  | .ifThen c body => c.literals.map some ++ Statement.constantsAll body
  | .ifElse c body otherwise =>
    c.literals.map some ++ (Statement.constantsAll body ++ Statement.constantsAll otherwise)
  | .whileDo c body => c.literals.map some ++ Statement.constantsAll body
  | .dotimes b body => none :: (b.val.literals.map some ++ Statement.constantsAll body)
  | .print _ _ | .read _ => []

def Statement.constantsAll : List Statement → List (Option Literal)
  | [] => []
  | s :: rest => s.constants ++ Statement.constantsAll rest

end

namespace Program

def constants (p : Program) : List (Option Literal) := Statement.constantsAll p.statements

/-- The numbers that are written in the program. -/
def literals (p : Program) : List Literal := p.constants.filterMap id

end Program

/-! ## The numbers of the source -/

namespace Token

/-- The number that a token denotes. -/
def value? : Token → Option Nat
  | number d => some (decimalValue d)
  | eof | newline | id _ | str _ | unknown _ | punctuation _ | operator _ | keyword _ => none

@[simp] theorem value?_id (x : String) : (id x).value? = none := rfl

@[simp] theorem value?_str (raw : String) : (str raw).value? = none := rfl

@[simp] theorem value?_punctuation (m : Punctuation) : (punctuation m).value? = none := rfl

@[simp] theorem value?_operator (op : Operator) : (operator op).value? = none := rfl

@[simp] theorem value?_keyword (k : Keyword) : (keyword k).value? = none := rfl

/-- The numbers among some tokens. -/
def values (w : List Token) : List Nat := w.filterMap value?

@[simp] theorem values_nil : values [] = [] := rfl

@[simp] theorem values_cons (t : Token) (w : List Token) :
    values (t :: w) = t.value?.toList ++ values w := by
  cases h : t.value? <;> simp [values, h]

@[simp] theorem values_append (w v : List Token) : values (w ++ v) = values w ++ values v :=
  List.filterMap_append

/-- The numbers of some tokens are part of what they say. -/
theorem values_of_reading {w v : List Token} (h : w.map reading = v.map reading) :
    values w = values v := by
  have hvalue : ∀ t : Token, t.value? = t.reading.getRight? := by
    intro t
    cases t <;> rfl
  have hvalues : ∀ w : List Token, values w = (w.map reading).filterMap Sum.getRight? := by
    intro w
    rw [values, List.filterMap_map]
    exact List.filterMap_congr fun t _ => hvalue t
  rw [hvalues, hvalues, h]

end Token

open Token (values)

@[simp] theorem Literal.value?_token (n : Literal) : n.token.value? = some n.value :=
  congrArg some (decimalValue_toString n.value)

mutual

theorem Factor.values_tokens (f : Factor) : values f.tokens = f.literals.map Literal.value := by
  cases f with
  | number n s => simp [Factor.literals]
  | var x s => rfl
  | group e s => simp [Factor.literals, e.values_tokens]

theorem Expr.values_tokens (e : Expr) : values e.tokens = e.literals.map Literal.value := by
  cases e with
  | factor f => exact f.values_tokens
  | binary left op right =>
    simp [Expr.literals, left.values_tokens, right.values_tokens]

end

@[simp] theorem Operand.value?_token (x : Operand) :
    x.token.value?.toList = x.literals.map Literal.value := by
  cases x with
  | number n => simp [Operand.token, Operand.literals]
  | var x => rfl

@[simp] theorem Bound.value?_token (b : Bound) :
    b.token.value?.toList = b.literals.map Literal.value := by
  cases b with
  | number n => simp [Bound.token, Bound.literals]
  | var x => rfl

@[simp] theorem PrintArg.value?_token (a : PrintArg) : a.token.value? = none := by
  cases a <;> rfl

theorem PrintArg.values_further (args : List (Located PrintArg)) :
    values (furtherTokens args) = [] := by
  induction args with
  | nil => rfl
  | cons a args ih =>
    rw [furtherTokens] at ih ⊢
    simp [ih]

@[simp] theorem Condition.values_sign (n : Bool) : values (sign n) = [] := by
  cases n <;> rfl

theorem Condition.values_tokens (c : Condition) :
    values c.tokens = c.literals.map Literal.value := by
  induction c with
  | simple n x => simp [Condition.literals]
  | compare n x op y =>
    simp [Condition.literals]
  | group n c ih => simp [Condition.literals, ih]
  | groupThen n c op d ihc ihd => simp [Condition.literals, ihc, ihd]

theorem Condition.values_guard (k : Keyword) (c : Condition) :
    values (c.guard k) = c.literals.map Literal.value := by
  simp [guard, c.values_tokens]

@[simp] theorem values_braced (w : List Token) : values (braced w) = values w := by
  simp [braced]

mutual

theorem Statement.values_tokens (s : Statement) :
    values s.tokens = (s.constants.filterMap id).map Literal.value := by
  cases s with
  | declare x value =>
    cases value with
    | none => rfl
    | some e => simp [Statement.tokens, Statement.constants, e.values_tokens]
  | assign x e => simp [Statement.tokens, Statement.constants, e.values_tokens]
  | ifThen c body =>
    simp [Statement.tokens, Statement.constants, c.values_guard,
      Statement.values_tokensAll body]
  | ifElse c body otherwise =>
    simp [Statement.tokens, Statement.constants, c.values_guard,
      Statement.values_tokensAll body, Statement.values_tokensAll otherwise]
  | whileDo c body =>
    simp [Statement.tokens, Statement.constants, c.values_guard,
      Statement.values_tokensAll body]
  | dotimes b body =>
    simp [Statement.tokens, Statement.constants,
      Statement.values_tokensAll body]
  | print first more =>
    simp [Statement.tokens, Statement.constants,
      PrintArg.values_further]
  | read x => rfl

theorem Statement.values_tokensAll (ss : List Statement) :
    values (Statement.tokensAll ss) =
      ((Statement.constantsAll ss).filterMap id).map Literal.value := by
  cases ss with
  | nil => rfl
  | cons s rest =>
    simp [Statement.tokensAll, Statement.constantsAll, s.values_tokens,
      Statement.values_tokensAll rest]

end

/-- An accepted program has the numbers that its source denotes, one by one. -/
theorem Source.literals_eq {s : Source} {p : Program} (h : s.parse = .ok p) :
    p.literals.map Literal.value = values s.words := by
  rw [← Token.values_of_reading (Source.parse_spelled h).1, Statement.values_tokensAll]
  rfl

/-! ## The numbers of the C text -/

namespace C

def Lexeme.digits? : Lexeme → Option String
  | .number d => some d
  | .word _ | .text _ | .mark _ | .stray _ => none

/-- The numerals among some C tokens. -/
def numerals (ls : List Lexeme) : List String := ls.filterMap Lexeme.digits?

@[simp] theorem numerals_nil : numerals [] = [] := rfl

@[simp] theorem numerals_cons (l : Lexeme) (ls : List Lexeme) :
    numerals (l :: ls) = l.digits?.toList ++ numerals ls := by
  cases h : l.digits? <;> simp [numerals, h]

@[simp] theorem numerals_append (ls ms : List Lexeme) :
    numerals (ls ++ ms) = numerals ls ++ numerals ms :=
  List.filterMap_append

@[simp] theorem numerals_parens (ls : List Lexeme) : numerals (parens ls) = numerals ls := by
  simp [parens, Lexeme.digits?]

@[simp] theorem numerals_braces (ls : List Lexeme) : numerals (braces ls) = numerals ls := by
  simp [braces, Lexeme.digits?]

@[simp] theorem numerals_bang (n : Bool) : numerals (bang n) = [] := by
  cases n <;> rfl

/-- How a constant is written. -/
def constantText : Option Literal → String
  | none => "0"
  | some n => n.numeral

end C

open C (numerals constantText)
open C.Lexeme (digits?)

@[simp] theorem Arithmetic.digits?_mark (op : Arithmetic) : op.mark.digits? = none := by
  cases op <;> rfl

@[simp] theorem Comparison.digits?_mark (op : Comparison) : op.mark.digits? = none := by
  cases op <;> rfl

mutual

theorem Factor.numerals_lexemes (f : Factor) :
    numerals f.lexemes = f.literals.map Literal.numeral := by
  cases f with
  | number n s => rfl
  | var x s => rfl
  | group e s => simp [Factor.lexemes, Factor.literals, e.numerals_lexemes]

theorem Expr.numerals_lexemes (e : Expr) :
    numerals e.lexemes = e.literals.map Literal.numeral := by
  cases e with
  | factor f => exact f.numerals_lexemes
  | binary left op right =>
    simp [Expr.lexemes, Expr.literals, left.numerals_lexemes, right.numerals_lexemes]

end

theorem Operand.digits?_lexeme (x : Operand) :
    x.lexeme.digits?.toList = x.literals.map Literal.numeral := by
  cases x <;> rfl

theorem Condition.numerals_lexemes (c : Condition) :
    numerals c.lexemes = c.literals.map Literal.numeral := by
  induction c with
  | simple n x => simp [Condition.lexemes, Condition.literals, x.digits?_lexeme]
  | compare n x op y =>
    simp [Condition.lexemes, Condition.literals, x.digits?_lexeme, y.digits?_lexeme]
  | group n c ih => simp [Condition.lexemes, Condition.literals, ih]
  | groupThen n c op d ihc ihd => simp [Condition.lexemes, Condition.literals, ihc, ihd]

/-- The header of a loop counts from zero, to the number that bounds the loop if one does. -/
theorem Bound.numerals_lexemes (b : Bound) (k : Nat) :
    numerals (b.lexemes k) = "0" :: b.literals.map Literal.numeral := by
  cases b <;> simp [Bound.lexemes, Bound.literals, forHeader, digits?, Literal.numeral]

theorem PrintArg.numerals_lexemes (args : List PrintArg) : numerals (lexemes args) = [] := by
  have hvalues : numerals (args.flatMap valueLexemes) = [] := by
    induction args with
    | nil => rfl
    | cons a args ih => cases a <;> simp [valueLexemes, digits?, ih]
  simp [lexemes, digits?, hvalues]

theorem constantText_comp_some : constantText ∘ some = Literal.numeral := rfl

mutual

theorem Statement.numerals_lexemes (s : Statement) (k : Nat) :
    numerals (s.lexemes k) = s.constants.map constantText := by
  cases s with
  | declare x value =>
    cases value with
    | none => rfl
    | some e => simp [Statement.lexemes, Statement.constants, digits?, e.numerals_lexemes,
        constantText_comp_some]
  | assign x e =>
    simp [Statement.lexemes, Statement.constants, digits?, e.numerals_lexemes,
      constantText_comp_some]
  | ifThen c body =>
    simp [Statement.lexemes, Statement.constants, digits?, c.numerals_lexemes,
      constantText_comp_some, Statement.numerals_lexemesAll body k]
  | ifElse c body otherwise =>
    simp [Statement.lexemes, Statement.constants, digits?, c.numerals_lexemes,
      constantText_comp_some, Statement.numerals_lexemesAll body k,
      Statement.numerals_lexemesAll otherwise]
  | whileDo c body =>
    simp [Statement.lexemes, Statement.constants, digits?, c.numerals_lexemes,
      constantText_comp_some, Statement.numerals_lexemesAll body k]
  | dotimes b body =>
    simp [Statement.lexemes, Statement.constants, b.val.numerals_lexemes k, constantText,
      constantText_comp_some, Statement.numerals_lexemesAll body (k + 1)]
  | print first more =>
    simp [Statement.lexemes, Statement.constants, digits?, PrintArg.numerals_lexemes]
  | read x => rfl

theorem Statement.numerals_lexemesAll (ss : List Statement) (k : Nat) :
    numerals (Statement.lexemesAll k ss) = (Statement.constantsAll ss).map constantText := by
  cases ss with
  | nil => rfl
  | cons s rest =>
    simp [Statement.lexemesAll, Statement.constantsAll, s.numerals_lexemes k,
      Statement.numerals_lexemesAll rest]

end

/-- The C text has the numbers of the tree in its order and no others, but for the zeros
that loops count from. -/
theorem Program.numerals_body (p : Program) : numerals p.body = p.constants.map constantText := by
  have hdeclarations :
      numerals (p.declarations.flatMap fun x => [.word "int", .word x, .mark ";"]) = [] := by
    induction p.declarations with
    | nil => rfl
    | cons x xs ih => simp [digits?, ih]
  rw [body, C.numerals_append, hdeclarations, Statement.numerals_lexemesAll]
  rfl

/-! ## What a constant denotes -/

/-- What the digits of a constant denote in C: an octal number behind a zero, a decimal
number otherwise. -/
def C.integerConstant? : List Char → Option Nat
  | [] => none
  | '0' :: cs => if cs.all isOctalDigit then some (Nat.ofDigitChars 8 cs 0) else none
  | c :: cs =>
    if (c :: cs).all Char.isDigit then some (Nat.ofDigitChars 10 (c :: cs) 0) else none

/-- The digits of a positive number do not begin with a zero. -/
theorem head?_toDigits_ne_zero {n : Nat} (h : 0 < n) : (Nat.toDigits 10 n).head? ≠ some '0' := by
  induction n using Nat.strongRecOn with
  | _ n ih =>
    by_cases hsmall : n < 10
    · have hdigits : ∀ m < 10, 0 < m → Nat.digitChar m ≠ '0' := by decide
      rw [Nat.toDigits_of_lt_base hsmall, List.head?_cons, ne_eq, Option.some.injEq]
      exact hdigits n hsmall h
    · have hquotient : (Nat.toDigits 10 (n / 10)).head? ≠ some '0' := ih (n / 10) (by omega) (by omega)
      rw [Nat.toDigits_of_base_le (by decide) (by omega),
        List.head?_append_of_ne_nil _ Nat.toDigits_ne_nil]
      exact hquotient

namespace Literal

/-- A numeral begins with a zero only if it is one. -/
theorem head?_numeral (n : Literal) :
    n.numeral = "0" ∨ n.numeral.toList.head? ≠ some '0' := by
  rcases Nat.eq_zero_or_pos n.value with hzero | hpos
  · left
    rw [numeral, hzero]
    rfl
  · right
    rw [numeral, Nat.toString_eq_ofList_toDigits, String.toList_ofList]
    exact head?_toDigits_ne_zero hpos

/-- So it denotes the same number in C. -/
theorem integerConstant?_numeral (n : Literal) :
    C.integerConstant? n.numeral.toList = some n.value := by
  obtain ⟨hne, hdigits⟩ := toString_digits n.value
  have hvalue : Nat.ofDigitChars 10 (toString n.value).toList 0 = n.value :=
    decimalValue_toString n.value
  rcases n.head?_numeral with hzero | hhead
  · have hn : n.value = 0 := by
      rw [← hvalue]
      show decimalValue n.numeral = 0
      rw [hzero]
      rfl
    rw [hzero, hn]
    rfl
  · rw [numeral] at hhead ⊢
    obtain ⟨c, cs, hcs⟩ := List.exists_cons_of_ne_nil hne
    rw [hcs] at hhead hdigits hvalue ⊢
    have hc : c ≠ '0' := by simpa using hhead
    have hall : (c :: cs).all Char.isDigit = true := List.all_eq_true.mpr hdigits
    rw [C.integerConstant?]
    · rw [if_pos hall, hvalue]
    · exact hc

end Literal

/-- Numbers keep their value. Digits are read in the standard way, which finds nothing
wrong with them but that the number is too large; wherever a program admits a number, as
it does where an accepted one has a number, it is accepted if it is at most 2147483647,
and otherwise refused for its digits. The tree of an accepted program has the numbers that
the source denotes, one by one, and the C text in either format has the numerals of these,
with a zero for each loop to count from. Each numeral denotes its number in C too, where a
leading zero would make it octal. So sources that differ only in leading zeros have the
same C text. -/
theorem Source.literals_keep_value :
    (∀ d span, IsNumeral d →
      (decimalValue d ≤ 2147483647 → readInt32 d.toList = .ok (decimalValue d : Int) ∧
        ∃ n, readLiteral d span = .ok n ∧ n.value = decimalValue d) ∧
      (2147483647 < decimalValue d → readInt32 d.toList = .error .posOverflow ∧
        readLiteral d span = .error ⟨.literalOverflow d, span⟩)) ∧
    (∀ (s : Source) before t after d, s.significant = before ++ t :: after →
      t.val = .number d → AdmitsNumber (before.map (·.val)) →
      ((∃ q, Progress.start.feedAll (before ++ [t]) = .ok q) ↔ decimalValue d ≤ 2147483647) ∧
      (2147483647 < decimalValue d → s.parse = .error ⟨.literalOverflow d, t.span⟩)) ∧
    (∀ (s : Source) p, s.parse = .ok p →
      (∀ w d v, s.words = w ++ .number d :: v → AdmitsNumber w) ∧
      p.literals.map Literal.value = s.words.filterMap Token.value? ∧
      ∀ f, ∃ text, s.compile f = .ok text ∧
        C.read text = ("#include <stdio.h>",
          [.word "int", .word "main"] ++ parens [.word "void"] ++ braces p.body) ∧
        p.body.filterMap C.Lexeme.digits? = p.constants.map C.constantText) ∧
    (∀ n : Literal, (n.numeral = "0" ∨ n.numeral.toList.head? ≠ some '0') ∧
      C.integerConstant? n.numeral.toList = some n.value) ∧
    (∀ s s' : Source, List.Forall₂ Token.Repadded s.words s'.words →
      ∀ f text, s.compile f = .ok text ↔ s'.compile f = .ok text) := by
  refine ⟨?_, ?_, ?_, ?_, ?_⟩
  · intro d span hd
    have hread := readInt32_digits hd
    refine ⟨fun hfits => ?_, fun hover => ?_⟩
    · rw [if_pos hfits] at hread
      exact ⟨hread, readLiteral_fits hfits span⟩
    · rw [if_neg (by omega)] at hread
      exact ⟨hread, readLiteral_overflows hover span⟩
  · exact fun s before t after d h ht hadmits => s.literal_at h ht hadmits
  · intro s p h
    refine ⟨fun w d v hw => Source.admitsNumber_of_words h hw, Source.literals_eq h, fun f => ?_⟩
    obtain ⟨text, htext, hread⟩ := Source.compile_body h f
    exact ⟨text, htext, hread, p.numerals_body⟩
  · exact fun n => ⟨n.head?_numeral, n.integerConstant?_numeral⟩
  · exact fun s s' h => Source.compile_of_repadded h

end BareBones
