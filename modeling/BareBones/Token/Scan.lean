import BareBones.Source
import BareBones.Token

/-!
Cutting a text into tokens. Blanks and comments are skipped, a newline is a
token, and every token takes as many characters as it can. Nothing is refused
here: a character of no known class and a text that its line does not close
become `unknown` tokens.
-/

namespace BareBones

/-- The first token of a text, the characters it takes and the ones it leaves. -/
structure Munch where
  token : Token
  raw : List Char
  rest : List Char

namespace Munch

/-- Tokens with a fixed symbol. A symbol stands before any that it begins with. -/
def symbols : List Token :=
  [.comparison .equal, .comparison .notEqual, .comparison .lessOrEqual,
    .comparison .greaterOrEqual, .assign, .not, .comparison .less, .comparison .greater,
    .arithmetic .add, .arithmetic .sub, .arithmetic .mul, .arithmetic .div, .arithmetic .mod,
    .openParen, .closeParen, .punctuation .openSquare, .punctuation .closeSquare,
    .openCurly, .closeCurly, .semicolon, .comma]

def symbol? (cs : List Char) : Option Token :=
  symbols.find? fun t => t.lexeme.toList.isPrefixOf cs

def symbol (c : Char) (cs : List Char) : Munch :=
  match symbol? (c :: cs) with
  | some t => ⟨t, t.lexeme.toList, (c :: cs).drop t.lexeme.toList.length⟩
  | none => ⟨.unknown (String.singleton c), [c], cs⟩

/-- A run that `c` begins and that goes on while `more` holds. -/
def run (token : String → Token) (more : Char → Bool) (c : Char) (cs : List Char) : Munch :=
  let raw := c :: cs.takeWhile more
  ⟨token (String.ofList raw), raw, cs.dropWhile more⟩

/-- Splits what follows an opening quote before the first quote that no
backslash escapes, or before the end of the line if that comes first. The
characters already passed are given newest first. -/
def splitText (passed : List Char) : List Char → List Char × List Char
  | [] => (passed.reverse, [])
  | '\\' :: c :: cs =>
    if c = '\n' then (('\\' :: passed).reverse, c :: cs)
    else splitText (c :: '\\' :: passed) cs
  | c :: cs =>
    if c = '"' ∨ c = '\n' then (passed.reverse, c :: cs)
    else splitText (c :: passed) cs

/-- The token that an opening quote before `cs` begins. -/
def text (cs : List Char) : Munch :=
  match splitText [] cs with
  | (inside, '"' :: rest) => ⟨.str (String.ofList inside), '"' :: inside ++ ['"'], rest⟩
  | (inside, rest) => ⟨.unknown (String.ofList ('"' :: inside)), '"' :: inside, rest⟩

/-- The token that `c` begins. -/
def startingWith (c : Char) (cs : List Char) : Munch :=
  if c = '\n' then ⟨.newline, [c], cs⟩
  else if c = '"' then text cs
  else if c.isDigit then run .number Char.isDigit c cs
  else if c.isAlpha then run .ofWord Char.isAlphanum c cs
  else symbol c cs

def ofChars : List Char → Munch
  | [] => ⟨.eof, [], []⟩
  | c :: cs => startingWith c cs

theorem run_raw_append_rest (token : String → Token) (more : Char → Bool) (c : Char)
    (cs : List Char) : (run token more c cs).raw ++ (run token more c cs).rest = c :: cs := by
  simp [run]

theorem symbol_raw_append_rest (c : Char) (cs : List Char) :
    (symbol c cs).raw ++ (symbol c cs).rest = c :: cs := by
  unfold symbol
  split
  · rename_i t h
    have hp := List.find?_some h
    rw [List.isPrefixOf_iff_prefix] at hp
    obtain ⟨rest, hr⟩ := hp
    simp [← hr]
  · rfl

theorem splitText_append (passed cs : List Char) :
    (splitText passed cs).1 ++ (splitText passed cs).2 = passed.reverse ++ cs := by
  fun_induction splitText passed cs <;> simp_all

theorem text_raw_append_rest (cs : List Char) :
    (text cs).raw ++ (text cs).rest = '"' :: cs := by
  have h := splitText_append [] cs
  unfold text
  split <;> simp_all

theorem startingWith_raw_append_rest (c : Char) (cs : List Char) :
    (startingWith c cs).raw ++ (startingWith c cs).rest = c :: cs := by
  fun_cases startingWith c cs with
  | case1 h => rfl
  | case2 h h' => exact h' ▸ text_raw_append_rest cs
  | case3 => exact run_raw_append_rest ..
  | case4 => exact run_raw_append_rest ..
  | case5 => exact symbol_raw_append_rest c cs

/-- A token and what follows it make up the text. -/
theorem ofChars_raw_append_rest (cs : List Char) :
    (ofChars cs).raw ++ (ofChars cs).rest = cs := by
  cases cs with
  | nil => rfl
  | cons c cs => exact startingWith_raw_append_rest c cs

theorem symbols_lexeme_ne_nil : ∀ t ∈ symbols, t.lexeme.toList ≠ [] := by decide

theorem symbol_raw_ne_nil (c : Char) (cs : List Char) : (symbol c cs).raw ≠ [] := by
  unfold symbol
  split
  · rename_i t h
    exact symbols_lexeme_ne_nil t (List.mem_of_find?_eq_some h)
  · simp

theorem text_raw_ne_nil (cs : List Char) : (text cs).raw ≠ [] := by
  unfold text
  split <;> simp

theorem startingWith_raw_ne_nil (c : Char) (cs : List Char) :
    (startingWith c cs).raw ≠ [] := by
  fun_cases startingWith c cs with
  | case1 => simp
  | case2 => exact text_raw_ne_nil cs
  | case3 => simp [run]
  | case4 => simp [run]
  | case5 => exact symbol_raw_ne_nil c cs

/-- Only the end of the text gives `eof` without taking a character. -/
theorem ofChars_rest_length_lt (cs : List Char) (h : (ofChars cs).token ≠ .eof) :
    (ofChars cs).rest.length < cs.length := by
  cases cs with
  | nil => exact absurd rfl h
  | cons c cs =>
    have ha := congrArg List.length (startingWith_raw_append_rest c cs)
    have hn := List.length_pos_iff.2 (startingWith_raw_ne_nil c cs)
    simp only [List.length_append] at ha
    change (startingWith c cs).rest.length < _
    omega

end Munch

/-- A place in a text: where it is and the characters from there on. -/
structure Cursor where
  here : Position
  rest : List Char

namespace Cursor

/-- Blanks carry no meaning, unlike a newline, which is a token. -/
def isBlank (c : Char) : Bool := c = ' ' || c = '\t' || c = '\r'

/-- Passes over blanks and comments; a comment runs from `#` to the end of its line. -/
def skip (inComment : Bool) (here : Position) : List Char → Cursor
  | [] => ⟨here, []⟩
  | c :: cs =>
    if c ≠ '\n' && (inComment || c = '#' || isBlank c) then
      skip (inComment || c = '#') (here.after c) cs
    else ⟨here, c :: cs⟩

/-- The place of the next token. -/
def skipped (k : Cursor) : Cursor := skip false k.here k.rest

/-- The next token and the place behind it. At the end of the text the answer
is `eof`, however often it is asked for. -/
def next (k : Cursor) : Located Token × Cursor :=
  let k := k.skipped
  let m := Munch.ofChars k.rest
  (⟨m.token, k.here, k.here.afterAll m.raw.dropLast⟩, ⟨k.here.afterAll m.raw, m.rest⟩)

theorem skip_rest_length_le (inComment : Bool) (here : Position) (cs : List Char) :
    (skip inComment here cs).rest.length ≤ cs.length := by
  induction cs generalizing inComment here with
  | nil => exact Nat.le_refl _
  | cons c cs ih =>
    unfold skip
    split
    · exact Nat.le_succ_of_le (ih _ _)
    · exact Nat.le_refl _

theorem next_rest_length_lt (k : Cursor) (h : k.next.1.val ≠ .eof) :
    k.next.2.rest.length < k.rest.length :=
  Nat.lt_of_lt_of_le (Munch.ofChars_rest_length_lt k.skipped.rest h)
    (skip_rest_length_le false k.here k.rest)

/-- The tokens already seen, newest first, and then all others up to `eof`. -/
def tokensFrom (seen : List (Located Token)) (k : Cursor) : List (Located Token) :=
  if k.next.1.val = .eof then (k.next.1 :: seen).reverse
  else tokensFrom (k.next.1 :: seen) k.next.2
termination_by k.rest.length
decreasing_by exact next_rest_length_lt k ‹_›

end Cursor

namespace Source

def cursor (s : Source) : Cursor := ⟨.start, s.text.toList⟩

/-- The tokens of a source, of which only the last is `eof`. -/
def tokens (s : Source) : List (Located Token) := s.cursor.tokensFrom []

end Source

end BareBones
