import BareBones.Proofs.C.Spacing

/-!
Lines of C read back as tokens. The pieces of a line are read as the tokens they
stand for, in both formats (`Spells`). A whole line is read back whatever stands
behind it (`Settled`), so that lines can be joined without a look at what comes
next.
-/

namespace BareBones

open C
open C.Lexeme (parens braces bang forHeader)

/-! ## Trees and tokens -/

theorem Arithmetic.toLexeme (op : Arithmetic) : (Token.arithmetic op).toLexeme = op.mark := by
  cases op <;> rfl

theorem Comparison.toLexeme (op : Comparison) : (Token.comparison op).toLexeme = op.mark := by
  cases op <;> rfl

theorem Operand.toLexeme (x : Operand) : x.token.toLexeme = x.lexeme := by
  cases x <;> rfl

theorem Condition.map_toLexeme_sign (n : Bool) :
    (Condition.sign n).map Token.toLexeme = bang n := by
  cases n <;> rfl

mutual

theorem Factor.map_toLexeme (f : Factor) : f.tokens.map Token.toLexeme = f.lexemes := by
  cases f with
  | number n s => rfl
  | var x s => rfl
  | group e s =>
    have h := e.map_toLexeme
    simp [Factor.lexemes, parens, h, Token.toLexeme, Punctuation.symbol]

theorem Expr.map_toLexeme (e : Expr) : e.tokens.map Token.toLexeme = e.lexemes := by
  cases e with
  | factor f => exact f.map_toLexeme
  | binary left op right =>
    have hl := left.map_toLexeme
    have hr := right.map_toLexeme
    rw [Expr.tokens_binary, List.map_append, List.map_cons, hl, hr, op.toLexeme, Expr.lexemes]

end

theorem Condition.map_toLexeme (c : Condition) : c.tokens.map Token.toLexeme = c.lexemes := by
  induction c with
  | simple n x => simp [lexemes, map_toLexeme_sign, x.toLexeme]
  | compare n x op y =>
    simp [lexemes, map_toLexeme_sign, x.toLexeme, y.toLexeme, op.toLexeme]
  | group n c ih =>
    simp [lexemes, map_toLexeme_sign, ih, parens, Token.toLexeme, Punctuation.symbol]
  | groupThen n c op d ihc ihd =>
    simp [lexemes, map_toLexeme_sign, ihc, ihd, op.toLexeme, parens]
    simp [Token.toLexeme, Punctuation.symbol]

/-! ## Lines -/

namespace C

/-- `cs` is read as `ls`, whatever stands behind it. -/
def Settled (cs : List Char) (ls : List Lexeme) : Prop :=
  ∀ rest, lex (cs ++ rest) = ls ++ lex rest

namespace Settled

theorem nil : Settled [] [] := fun _ => rfl

theorem append {cs ds : List Char} {ls ms : List Lexeme} (hc : Settled cs ls)
    (hd : Settled ds ms) : Settled (cs ++ ds) (ls ++ ms) := by
  intro rest
  rw [List.append_assoc, hc, hd, List.append_assoc]

theorem blanks {cs : List Char} (h : cs.all isBlank = true) : Settled cs [] := by
  intro rest
  induction cs with
  | nil => rfl
  | cons c cs ih =>
    rw [List.all_cons, Bool.and_eq_true] at h
    rw [List.cons_append, lex_blank h.1]
    exact ih h.2

/-- A mark that no other begins with. -/
theorem mark {m : String} (hm : m ∈ marks)
    (hs : ∀ n ∈ marks, m.toList <+: n.toList → n = m) (hdot : m ≠ ".") :
    Settled m.toList [.mark m] := by
  intro rest
  refine lex_mark hm fun c _ => ?_
  exact Lexeme.meets_iff.mp (Lexeme.mark_meets_of_solitary hs hdot (.stray c)) c rfl

theorem openParen : Settled ['('] [.mark "("] :=
  mark (m := "(") (by decide) (by decide) (by decide)

theorem closeParen : Settled [')'] [.mark ")"] :=
  mark (m := ")") (by decide) (by decide) (by decide)

theorem semicolon : Settled [';'] [.mark ";"] :=
  mark (m := ";") (by decide) (by decide) (by decide)

theorem openCurly : Settled ['\x7b'] [.mark "\x7b"] :=
  mark (m := "\x7b") (by decide) (by decide) (by decide)

theorem closeCurly : Settled ['\x7d'] [.mark "\x7d"] :=
  mark (m := "\x7d") (by decide) (by decide) (by decide)

theorem blank {cs : List Char} {ls : List Lexeme} (h : Settled cs ls) :
    Settled (' ' :: cs) ls := by
  intro rest
  rw [List.cons_append, lex_blank (by decide), h]

/-- A word is read whole before a character that no token goes on with. -/
theorem word {x : String} (hx : IsWord x) {c : Char} (hc : c ∈ Lexeme.boundaries)
    {cs : List Char} {ls : List Lexeme} (h : Settled (c :: cs) ls) :
    Settled (x.toList ++ c :: cs) (.word x :: ls) := by
  intro rest
  have hends : ∀ d ∈ (c :: cs ++ rest).head?, (Lexeme.word x).endsBefore d = true := by
    rintro d ⟨⟩
    exact (Lexeme.word x).endsBefore_of_mem_boundaries hx hc
  have hword := lex_spelling (l := .word x) hx hends
  rw [h rest] at hword
  rw [List.append_assoc]
  exact hword

end Settled

/-- In both formats the pieces are written as the tokens `ls`, with blanks between those
that would run together. -/
structure Spells (pieces : List Piece) (ls : List Lexeme) : Prop where
  wellFormed : ∀ l ∈ ls, l.WellFormed
  parts : ∀ f, ∃ parts, Line.content f pieces = spellAll parts ∧ parts.map (·.1) = ls ∧ Parted parts

namespace Spells

theorem exists_parts {pieces : List Piece} {ls : List Lexeme} (h : Spells pieces ls) (f : Format) :
    ∃ parts, Line.content f pieces = spellAll parts ∧ parts.map (·.1) = ls ∧ Parted parts ∧
      ∀ l ∈ parts, l.1.WellFormed := by
  obtain ⟨parts, hcontent, hfst, hparted⟩ := h.parts f
  refine ⟨parts, hcontent, hfst, hparted, fun l hl => h.wellFormed l.1 ?_⟩
  rw [← hfst]
  exact List.mem_map_of_mem hl

/-- Before a character that no token goes on with, the pieces are read back. -/
theorem lex_content {pieces : List Piece} {ls : List Lexeme} (h : Spells pieces ls) (f : Format)
    {rest : List Char} (hr : ∀ c ∈ rest.head?, c ∈ Lexeme.boundaries) :
    lex (Line.content f pieces ++ rest) = ls ++ lex rest := by
  obtain ⟨parts, hcontent, hfst, hparted, hwf⟩ := h.exists_parts f
  rw [hcontent, lex_spellAll hwf hparted, hfst]
  intro l hl c hc
  exact l.1.endsBefore_of_mem_boundaries (hwf l (List.mem_of_mem_getLast? hl)) (hr c hc)

theorem newline_notMem {pieces : List Piece} {ls : List Lexeme} (h : Spells pieces ls)
    (f : Format) : '\n' ∉ Line.content f pieces := by
  obtain ⟨parts, hcontent, -, -, hwf⟩ := h.exists_parts f
  rw [hcontent]
  exact newline_notMem_spellAll hwf

/-- Pieces that begin with a word are written from its first character on. -/
theorem head_isWordChar {pieces : List Piece} {x : String} {ls : List Lexeme}
    (h : Spells pieces (.word x :: ls)) (f : Format) :
    ∃ c cs, Line.content f pieces = c :: cs ∧ isWordChar c = true := by
  obtain ⟨parts, hcontent, hfst, -, -⟩ := h.exists_parts f
  obtain ⟨c, cs, hx, hc, -⟩ : IsWord x := h.wellFormed (.word x) (by simp)
  cases parts with
  | nil => cases hfst
  | cons l parts =>
    obtain ⟨hl, -⟩ := List.cons.inj hfst
    have hspelling : l.1.spelling = c :: cs := by
      rw [show l.1 = .word x from hl]
      exact hx
    refine ⟨c, (cs ++ if l.2 then [' '] else []) ++ spellAll parts, ?_, hc⟩
    rw [hcontent, spellAll, List.flatMap_cons, hspelling]
    rfl

end Spells

theorem Line.content_single (f : Format) (p : Piece) :
    Line.content f [p] = (p.text f).toList := by
  have hgap : Pen.gap f {} p = false := by cases f <;> rfl
  simp [Line.content, Pen.put, hgap]

/-- A piece that is written with the same tokens in both formats. -/
theorem Spells.piece {p : Piece} {ls : List Lexeme} (parts : Format → List (Lexeme × Bool))
    (htext : ∀ f, (p.text f).toList = spellAll (parts f))
    (hfst : ∀ f, (parts f).map (·.1) = ls) (hwf : ∀ l ∈ ls, l.WellFormed)
    (hparted : ∀ f, Parted (parts f)) : Spells [p] ls where
  wellFormed := hwf
  parts f := ⟨parts f, by rw [Line.content_single, htext], hfst f, hparted f⟩

/-- The blank of the pretty format. -/
def Format.airy (f : Format) : Bool := f = .pretty

def readParts (x : String) (f : Format) : List (Lexeme × Bool) :=
  [(.word "scanf", false), (.mark "(", false), (.text "%d", false), (.mark ",", f.airy),
    (.mark "&", false), (.word x, false), (.mark ")", false)]

theorem quotable_conversion : Quotable ['%', 'd'] :=
  .plain (by decide) (by decide) (by decide) (.plain (by decide) (by decide) (by decide) .nil)

theorem spells_read {x : String} (hx : IsWord x) :
    Spells [.read x] (.word "scanf" :: parens [.text "%d", .mark ",", .mark "&", .word x]) := by
  have hscanf : IsWord "scanf" := IsWord.of_all rfl (by decide)
  have hformat := quotable_conversion
  refine .piece (readParts x) ?_ ?_ ?_ ?_
  · intro f
    cases f <;> simp [Piece.text, readParts, spellAll, Lexeme.spelling, Format.behind, Format.airy]
  · intro f
    rfl
  · have hmarks : "(" ∈ marks ∧ "," ∈ marks ∧ "&" ∈ marks ∧ ")" ∈ marks := by decide
    simp [parens, Lexeme.WellFormed, hscanf, hx, hformat, hmarks]
  · intro f
    have hmark : (Lexeme.mark ",").Meets (.mark "&") := by decide
    simp (disch := first | assumption | decide) [Parted, readParts, Lexeme.word_meets_mark,
      Lexeme.mark_meets_text, Lexeme.text_meets, Lexeme.mark_meets_word, hmark]

def argParts (args : List String) (f : Format) : List (Lexeme × Bool) :=
  args.flatMap fun x => [(.mark ",", f.airy), (.word x, false)]

def printParts (format : String) (args : List String) (f : Format) : List (Lexeme × Bool) :=
  [(.word "printf", false), (.mark "(", false), (.text format, false)] ++
    (argParts args f ++ [(.mark ")", false)])

theorem spellAll_argParts (args : List String) (f : Format) :
    spellAll (argParts args f) = (String.join (args.map (f.behind "," ++ ·))).toList := by
  rw [String.toList_join]
  induction args with
  | nil => rfl
  | cons x args ih =>
    rw [List.map_cons, List.flatMap_cons, ← ih]
    cases f <;> simp [argParts, spellAll, Lexeme.spelling, Format.behind, Format.airy]

theorem parted_argParts {args : List String} (h : ∀ x ∈ args, IsWord x) (f : Format)
    {l : Lexeme} (hl : l.WellFormed) :
    Parted ((l, false) :: (argParts args f ++ [(.mark ")", false)])) := by
  induction args generalizing l with
  | nil =>
    refine List.isChain_cons_cons.mpr ⟨Or.inr ?_, .singleton _⟩
    exact Lexeme.meets_of_mem_boundaries hl (by decide)
  | cons x args ih =>
    have hx : IsWord x := h x (by simp)
    refine List.isChain_cons_cons.mpr ⟨Or.inr ?_, List.isChain_cons_cons.mpr ⟨Or.inr ?_, ?_⟩⟩
    · exact Lexeme.meets_of_mem_boundaries (m := .mark ",") hl (by decide)
    · exact Lexeme.mark_meets_word hx
    · exact ih (fun y hy => h y (List.mem_cons_of_mem x hy)) (l := .word x) hx

theorem spells_print {format : String} {args : List String} (hf : Quotable format.toList)
    (h : ∀ x ∈ args, IsWord x) :
    Spells [.print format args] (.word "printf" ::
      parens (.text format :: args.flatMap fun x => [.mark ",", .word x])) := by
  have hprintf : IsWord "printf" := IsWord.of_all rfl (by decide)
  refine .piece (printParts format args) ?_ ?_ ?_ ?_
  · intro f
    have happend : ∀ ls ms, spellAll (ls ++ ms) = spellAll ls ++ spellAll ms := by simp [spellAll]
    rw [printParts, happend, happend, spellAll_argParts]
    simp [Piece.text, spellAll, Lexeme.spelling]
  · intro f
    simp [printParts, argParts, parens, List.map_flatMap]
  · have hmarks : "(" ∈ marks ∧ "," ∈ marks ∧ ")" ∈ marks := by decide
    have hargs : ∀ l ∈ args.flatMap fun x => [Lexeme.mark ",", .word x], l.WellFormed := by
      intro l hl
      obtain ⟨x, hx, hl⟩ := List.mem_flatMap.mp hl
      rcases List.mem_pair.mp hl with rfl | rfl
      · exact hmarks.2.1
      · exact h x hx
    simp only [parens, List.forall_mem_cons, List.forall_mem_append]
    exact ⟨hprintf, hmarks.1, ⟨hf, hargs⟩, hmarks.2.2, by simp⟩
  · intro f
    refine List.isChain_cons_cons.mpr ⟨Or.inr ?_, List.isChain_cons_cons.mpr ⟨Or.inr ?_, ?_⟩⟩
    · exact Lexeme.word_meets_mark (by decide)
    · exact Lexeme.mark_meets_text (by decide)
    · exact parted_argParts h f (l := .text format) hf

theorem loopHeader_none (f : Format) (counter bound : String) :
    Piece.loopHeader f counter bound none =
      "for" ++ f.behind "" ++ "(int " ++ counter ++ f.around "=" ++ "0" ++ "" ++ f.behind ";" ++
        counter ++ f.around "<" ++ bound ++ f.behind ";" ++ counter ++ "++)" := rfl

theorem loopHeader_some (f : Format) (counter bound limit : String) :
    Piece.loopHeader f counter bound (some limit) =
      "for" ++ f.behind "" ++ "(int " ++ counter ++ f.around "=" ++ "0" ++
        (f.behind "," ++ limit ++ f.around "=" ++ bound) ++ f.behind ";" ++
        counter ++ f.around "<" ++ limit ++ f.behind ";" ++ counter ++ "++)" := rfl

/-- The header of a counted loop, with what is between its first assignment and
its first semicolon. -/
def loopParts (counter : String) (copy : Format → List (Lexeme × Bool)) (limit : Lexeme)
    (f : Format) : List (Lexeme × Bool) :=
  [(.word "for", f.airy), (.mark "(", false), (.word "int", true), (.word counter, f.airy),
    (.mark "=", f.airy), (.number "0", false)] ++ (copy f ++
  [(.mark ";", f.airy), (.word counter, f.airy), (.mark "<", f.airy), (limit, false),
    (.mark ";", f.airy), (.word counter, false), (.mark "++", false), (.mark ")", false)])

theorem isWord_int : IsWord "int" := .of_all rfl (by decide)

theorem forHeader_wellFormed {counter : String} {copy : List Lexeme} {limit : Lexeme}
    (hc : IsWord counter) (hcopy : ∀ l ∈ copy, l.WellFormed) (hl : limit.WellFormed) :
    ∀ l ∈ forHeader counter copy limit, l.WellFormed := by
  have hfor : (Lexeme.word "for").WellFormed := IsWord.of_all rfl (by decide)
  have hint : (Lexeme.word "int").WellFormed := isWord_int
  have hc' : (Lexeme.word counter).WellFormed := hc
  have hzero : (Lexeme.number "0").WellFormed := ⟨by decide, List.all_eq_true.mp (by decide)⟩
  have hmarks : ∀ m ∈ ["(", "=", "<", ";", "++", ")"], (Lexeme.mark m).WellFormed := by
    simp only [Lexeme.WellFormed]
    decide
  simp only [forHeader, parens, List.forall_mem_cons, List.forall_mem_append]
  simp [hfor, hint, hc', hmarks, hl, hzero]
  exact hcopy

theorem spells_loop_literal {counter digits : String} (hc : IsWord counter)
    (hd : (Lexeme.number digits).WellFormed) :
    Spells [.loop counter digits none] (forHeader counter [] (.number digits)) := by
  refine .piece (loopParts counter (fun _ => []) (.number digits)) ?_ (fun _ => rfl)
    (forHeader_wellFormed hc (by simp) hd) ?_
  · intro f
    rw [Piece.text, loopHeader_none]
    cases f <;> simp [loopParts, spellAll, Lexeme.spelling, Format.behind, Format.around,
      Format.airy]
  · intro f
    have hint := isWord_int
    have hmark : (Lexeme.mark "++").Meets (.mark ")") := by decide
    have hd' := hd.2
    have hzero : ∀ c ∈ "0".toList, c.isDigit = true := List.all_eq_true.mp (by decide)
    simp (disch := first | assumption | decide) [Parted, loopParts, Lexeme.word_meets_mark,
      Lexeme.mark_meets_word, Lexeme.mark_meets_number, Lexeme.number_meets_mark, hmark]

theorem spells_loop_copy {counter limit x : String} (hc : IsWord counter) (hl : IsWord limit)
    (hx : IsWord x) :
    Spells [.loop counter x (some limit)]
      (forHeader counter [.mark ",", .word limit, .mark "=", .word x] (.word limit)) := by
  let copy (f : Format) : List (Lexeme × Bool) :=
    [(.mark ",", f.airy), (.word limit, f.airy), (.mark "=", f.airy), (.word x, false)]
  refine .piece (loopParts counter copy (.word limit)) ?_ (fun _ => rfl) ?_ ?_
  · intro f
    rw [Piece.text, loopHeader_some]
    cases f <;> simp [loopParts, copy, spellAll, Lexeme.spelling, Format.behind, Format.around,
      Format.airy]
  · have hmarks : "," ∈ marks ∧ "=" ∈ marks := by decide
    refine forHeader_wellFormed hc ?_ hl
    simp [Lexeme.WellFormed, hmarks, hl, hx]
  · intro f
    have hint := isWord_int
    have hmark : (Lexeme.mark "++").Meets (.mark ")") := by decide
    have hzero : ∀ c ∈ "0".toList, c.isDigit = true := List.all_eq_true.mp (by decide)
    simp (disch := first | assumption | decide) [Parted, loopParts, copy, Lexeme.word_meets_mark,
      Lexeme.mark_meets_word, Lexeme.mark_meets_number, Lexeme.number_meets_mark, hmark]

/-- A line of tokens in which no operator runs into another. -/
theorem spells_tokens {ts : List Token} (h : Phrased ts)
    (hts : ∀ t ∈ ts, t.toLexeme.WellFormed) :
    Spells (ts.map .token) (ts.map Token.toLexeme) where
  wellFormed := List.forall_mem_map.mpr hts
  parts f := ⟨spaced f ts, Line.content_tokens f hts, map_fst_spaced f ts,
    parted_spaced f hts h.chain⟩

namespace Line

theorem settled_statement {pieces : List Piece} {ls : List Lexeme} (h : Spells pieces ls)
    (f : Format) (depth : Nat) :
    Settled ((Line.mk depth pieces .statement).text f).toList (ls ++ [.mark ";"]) := by
  intro rest
  have hsemi := Settled.semicolon rest
  rw [text, String.toList_ofList, tail, List.append_assoc, h.lex_content f (by simp [Lexeme.boundaries]),
    hsemi, List.append_assoc]

theorem settled_opening {pieces : List Piece} {ls : List Lexeme} (h : Spells pieces ls)
    (f : Format) (depth : Nat) :
    Settled ((Line.mk depth pieces .opening).text f).toList (ls ++ [.mark "\x7b"]) := by
  intro rest
  have hcurly := Settled.openCurly rest
  have hblank := Settled.openCurly.blank rest
  rw [text, String.toList_ofList, tail]
  split
  · rw [List.append_assoc, h.lex_content f (by simp [Lexeme.boundaries])]
    simpa using hblank
  · rw [List.append_assoc, h.lex_content f (by simp [Lexeme.boundaries]), hcurly, List.append_assoc]

theorem settled_closing (f : Format) (depth : Nat) :
    Settled ((Line.mk depth [] .closing).text f).toList [.mark "\x7d"] := by
  rw [text, String.toList_ofList]
  exact Settled.closeCurly

end Line

/-- What a line adds to the text of a program. -/
def lineChars (f : Format) (l : Line) : List Char :=
  match f with
  | .pretty => if l.text f = "" then [] else (prettyLine l.depth (l.text f)).toList
  | .compact => (l.text f).toList

theorem settled_indentation (depth : Nat) : Settled (indentation depth).toList [] := by
  refine .blanks ?_
  rw [indentation, String.toList_ofList, List.all_replicate]
  exact ite_self true

theorem settled_prettyLine {text : String} {ls : List Lexeme} (h : Settled text.toList ls)
    (depth : Nat) : Settled (prettyLine depth text).toList ls := by
  have hnewline : Settled "\n".toList [] := .blanks (by decide)
  have hline := ((settled_indentation (depth + 1)).append h).append hnewline
  simpa [prettyLine] using hline

theorem settled_lineChars {f : Format} {l : Line} {ls : List Lexeme}
    (h : Settled (l.text f).toList ls) : Settled (lineChars f l) ls := by
  cases f with
  | compact => exact h
  | pretty =>
    rw [lineChars]
    split
    · rename_i hempty
      simpa [hempty] using h
    · exact settled_prettyLine h l.depth

end C

end BareBones
