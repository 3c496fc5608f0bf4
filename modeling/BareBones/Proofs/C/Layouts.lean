import BareBones.Proofs.C.Lines
import BareBones.Proofs.C.Rows

/-!
Layouts read row by row. In the pretty format each row has a line of its own, set in
by four blanks for each brace that is open (`Stacked`). A layout goes on with lines
that hold the rows of its parts (`Lays`), and the braces of these are balanced.
-/

namespace BareBones

open C
open C.Lexeme (parens braces)

namespace C

/-! ## Rows on lines -/

/-- The line begins four blanks further in for each of `d` open braces. A brace that
ends a block stands where the block began. -/
def SetIn (d : Int) (line : List Char) : Prop :=
  ∃ n c cs, line = List.replicate (4 * n) ' ' ++ c :: cs ∧ c ≠ ' ' ∧
    (n : Int) = d - if c = '\x7d' then 1 else 0

theorem SetIn.ne_nil {d : Int} {line : List Char} (h : SetIn d line) : line ≠ [] := by
  obtain ⟨n, c, cs, rfl, -⟩ := h
  simp

/-- A line that holds one row, where `d` braces are open. -/
structure OnLine (d : Int) (line : List Char) (row : List Lexeme) : Prop where
  settled : Settled line row
  unbroken : '\n' ∉ line
  setIn : SetIn d line
  isRow : IsRow row

/-- Lines that hold one row each, or nothing, from where `d` braces are open. -/
inductive Stacked : Int → List (List Char) → List (List Lexeme) → Prop
  | nil {d : Int} : Stacked d [] []
  | blank {d : Int} {lines : List (List Char)} {rows : List (List Lexeme)} :
      Stacked d lines rows → Stacked d ([] :: lines) rows
  | row {d : Int} {line : List Char} {row : List Lexeme} {lines : List (List Char)}
      {rows : List (List Lexeme)} : OnLine d line row → Stacked (d + depth row) lines rows →
      Stacked d (line :: lines) (row :: rows)

namespace Stacked

theorem single {d : Int} {line : List Char} {row : List Lexeme} (h : OnLine d line row) :
    Stacked d [line] [row] :=
  .row h .nil

theorem append {d : Int} {lines lines' : List (List Char)} {rows rows' : List (List Lexeme)}
    (h : Stacked d lines rows) (h' : Stacked (d + depth rows.flatten) lines' rows') :
    Stacked d (lines ++ lines') (rows ++ rows') := by
  induction h with
  | nil => simpa using h'
  | blank _ ih => exact .blank (ih h')
  | row hline _ ih =>
    refine .row hline (ih ?_)
    rwa [Int.add_assoc, ← depth_append]

/-- Rows that close what they open leave the next lines where the first one is. -/
theorem append_closed {d : Int} {lines lines' : List (List Char)}
    {rows rows' : List (List Lexeme)} (h : Stacked d lines rows)
    (hclosed : depth rows.flatten = 0) (h' : Stacked d lines' rows') :
    Stacked d (lines ++ lines') (rows ++ rows') :=
  h.append (by rwa [hclosed, Int.add_zero])

theorem isRow {d : Int} {lines : List (List Char)} {rows : List (List Lexeme)}
    (h : Stacked d lines rows) : ∀ row ∈ rows, IsRow row := by
  induction h with
  | nil => simp
  | blank _ ih => exact ih
  | row hline _ ih => exact List.forall_mem_cons.mpr ⟨hline.isRow, ih⟩

theorem newline_notMem {d : Int} {lines : List (List Char)} {rows : List (List Lexeme)}
    (h : Stacked d lines rows) : ∀ line ∈ lines, '\n' ∉ line := by
  induction h with
  | nil => simp
  | blank _ ih => exact List.forall_mem_cons.mpr ⟨by simp, ih⟩
  | row hline _ ih => exact List.forall_mem_cons.mpr ⟨hline.unbroken, ih⟩

/-- The lines that are not empty are read as the rows, one each. -/
theorem map_lex {d : Int} {lines : List (List Char)} {rows : List (List Lexeme)}
    (h : Stacked d lines rows) : (lines.filter (· ≠ [])).map lex = rows := by
  induction h with
  | nil => rfl
  | blank _ ih => simpa using ih
  | @row d line row lines rows hline _ ih =>
    have hlex : lex line = row := by simpa [lex_nil] using hline.settled []
    rw [List.filter_cons_of_pos (by simpa using hline.setIn.ne_nil), List.map_cons, hlex, ih]

/-- Each line stands as far in as the braces before it say. -/
theorem setIn {d : Int} {before after : List (List Char)} {line : List Char}
    {rows : List (List Lexeme)} (h : Stacked d (before ++ line :: after) rows)
    (hne : line ≠ []) : SetIn (d + depth (lex (before.flatMap (· ++ ['\n'])))) line := by
  induction before generalizing d rows with
  | nil =>
    cases h with
    | blank => exact absurd rfl hne
    | row hline _ => simpa [lex_nil] using hline.setIn
  | cons first before ih =>
    have hnewline : Settled ['\n'] [] := .blanks (by decide)
    cases h with
    | blank h =>
      have hlex := hnewline (before.flatMap (· ++ ['\n']))
      rw [List.flatMap_cons, List.nil_append, hlex]
      exact ih h
    | @row _ _ row _ _ hline h =>
      have hlex := (hline.settled.append hnewline) (before.flatMap (· ++ ['\n']))
      rw [List.flatMap_cons, hlex, List.append_nil, depth_append, ← Int.add_assoc]
      exact ih h

end Stacked

/-- The lines of the pretty format, without their ends. -/
def prettyLines (lines : List Line) : List (List Char) :=
  (nonempty .pretty lines).map fun l => (indentation (l.1 + 1) ++ l.2).toList

theorem prettyLines_append (lines lines' : List Line) :
    prettyLines (lines ++ lines') = prettyLines lines ++ prettyLines lines' := by
  simp [prettyLines, nonempty]

theorem prettyLines_bare (depth : Nat) (lines : List Line) :
    prettyLines (⟨depth, [], .bare⟩ :: lines) = prettyLines lines := rfl

theorem Line.stacked {l : Line} {d : Int} {row : List Lexeme} {c : Char} {cs : List Char}
    (htext : (l.text .pretty).toList = c :: cs) (hc : c ≠ ' ')
    (hsettled : Settled (l.text .pretty).toList row) (hunbroken : '\n' ∉ (l.text .pretty).toList)
    (hrow : IsRow row) (hd : (l.depth + 1 : Int) = d - if c = '\x7d' then 1 else 0) :
    Stacked d (prettyLines [l]) [row] := by
  have hne : l.text .pretty ≠ "" := by
    intro h
    rw [h] at htext
    cases htext
  have hlines : prettyLines [l] = [(indentation (l.depth + 1) ++ l.text .pretty).toList] := by
    simp [prettyLines, nonempty, hne]
  rw [hlines]
  refine .single ⟨?_, ?_, ⟨l.depth + 1, c, cs, ?_, hc, by simpa using hd⟩, hrow⟩
  · simpa using (settled_indentation (l.depth + 1)).append hsettled
  · simp [indentation, hunbroken]
  · simp [indentation, htext]

theorem Line.newline_notMem_tail (f : Format) (content : List Char) (ending : Ending) :
    '\n' ∉ tail f content ending := by
  cases ending with
  | opening => rw [tail]; split <;> simp
  | _ => simp [tail]

/-- A line that begins with a word stands as far in as its depth says. -/
theorem Line.stacked_of_spells {pieces : List Piece} {x : String} {ls row : List Lexeme}
    {d : Nat} {ending : Ending} (h : Spells pieces (.word x :: ls))
    (hsettled : Settled ((Line.mk d pieces ending).text .pretty).toList row) (hrow : IsRow row) :
    Stacked (d + 1) (prettyLines [⟨d, pieces, ending⟩]) [row] := by
  obtain ⟨c, cs, hcontent, hc⟩ := h.head_isWordChar .pretty
  have hblank : c ≠ ' ' := by
    rintro rfl
    cases hc
  have hcurly : c ≠ '\x7d' := by
    rintro rfl
    cases hc
  have htext : ((Line.mk d pieces ending).text .pretty).toList =
      c :: (cs ++ tail .pretty (content .pretty pieces) ending) := by
    rw [text, String.toList_ofList, hcontent]
    rfl
  have hunbroken : '\n' ∉ ((Line.mk d pieces ending).text .pretty).toList := by
    rw [text, String.toList_ofList, List.mem_append, not_or]
    exact ⟨h.newline_notMem .pretty, newline_notMem_tail _ _ _⟩
  exact Line.stacked htext hblank hsettled hunbroken hrow (by simp [hcurly])

/-! ## Layouts -/

/-- Lines that begin at the depth `d` and hold `rows`. -/
structure Laid (d : Nat) (lines : List Line) (rows : List (List Lexeme)) : Prop where
  settled : ∀ f, Settled (lines.flatMap (lineChars f)) rows.flatten
  stacked : Stacked (d + 1) (prettyLines lines) rows
  balanced : Balanced rows.flatten

/-- A layout that has no line under way goes on with lines that hold `rows`. -/
def Lays (items : List Item) (rows : List (List Lexeme)) : Prop :=
  ∀ l : Layout, l.pending = [] → ∃ lines : List Line,
    items.foldl Layout.put l = { l with lines := lines.reverse ++ l.lines } ∧
      Laid l.depth lines rows

theorem Layout.foldl_put_pieces (l : Layout) (pieces : List Piece) :
    (pieces.map Item.piece).foldl put l =
      { l with pending := pieces.reverse ++ l.pending } := by
  induction pieces generalizing l with
  | nil => rfl
  | cons p pieces ih =>
    rw [List.map_cons, List.foldl_cons, ih]
    simp [put]

namespace Laid

theorem nil (d : Nat) : Laid d [] [] where
  settled _ := .nil
  stacked := .nil
  balanced := .of_braceless braceless_nil

/-- A line without characters is left out. -/
theorem bare (d : Nat) : Laid d [⟨d, [], .bare⟩] [] where
  settled f := by
    have hbare : lineChars f ⟨d, [], .bare⟩ = [] := by cases f <;> rfl
    simpa [hbare] using Settled.nil
  stacked := .nil
  balanced := .of_braceless braceless_nil

theorem append {d : Nat} {lines lines' : List Line} {rows rows' : List (List Lexeme)}
    (h : Laid d lines rows) (h' : Laid d lines' rows') :
    Laid d (lines ++ lines') (rows ++ rows') where
  settled f := by
    rw [List.flatMap_append, List.flatten_append]
    exact (h.settled f).append (h'.settled f)
  stacked := by
    rw [prettyLines_append]
    exact h.stacked.append_closed h.balanced.closed h'.stacked
  balanced := by
    rw [List.flatten_append]
    exact h.balanced.append h'.balanced

theorem statement {pieces : List Piece} {x : String} {ls : List Lexeme}
    (h : Spells pieces (.word x :: ls)) (hls : Braceless ls) (d : Nat) :
    Laid d [⟨d, pieces, .statement⟩] [.word x :: ls ++ [.mark ";"]] where
  settled f := by simpa using settled_lineChars (Line.settled_statement h f d)
  stacked := Line.stacked_of_spells h (Line.settled_statement h .pretty d)
    (Or.inr ⟨.word x :: ls, by simp [hls], by simp, Or.inl rfl⟩)
  balanced := .of_braceless (by simp [hls])

/-- The lines of a block are one deeper than those around it. -/
theorem block {pieces : List Piece} {x : String} {ls : List Lexeme} {d : Nat} {lines : List Line}
    {rows : List (List Lexeme)} (h : Spells pieces (.word x :: ls)) (hls : Braceless ls)
    (hb : Laid (d + 1) lines rows) :
    Laid d (⟨d, pieces, .opening⟩ :: (lines ++ [⟨d + 1, [], .bare⟩, ⟨d, [], .closing⟩]))
      (blockRows (.word x :: ls) rows) where
  settled f := by
    have hopen := settled_lineChars (Line.settled_opening h f d)
    have hclose := settled_lineChars (Line.settled_closing f d)
    have hbare : lineChars f ⟨d + 1, [], .bare⟩ = [] := by cases f <;> rfl
    have hall := hopen.append ((hb.settled f).append hclose)
    simpa [hbare, blockRows] using hall
  stacked := by
    have hheader : Braceless (.word x :: ls) := by simp [hls]
    have hopen : Stacked (d + 1) (prettyLines [⟨d, pieces, .opening⟩])
        [.word x :: ls ++ [.mark "\x7b"]] :=
      Line.stacked_of_spells h (Line.settled_opening h .pretty d)
        (Or.inr ⟨_, hheader, by simp, Or.inr rfl⟩)
    have htext : (Line.text .pretty ⟨d, [], .closing⟩).toList = ['\x7d'] := String.toList_ofList
    have hclose : Stacked (d + 1 + 1) (prettyLines [⟨d, [], .closing⟩]) [[.mark "\x7d"]] :=
      Line.stacked htext (by decide) (Line.settled_closing .pretty d) (by simp [htext])
        (Or.inl rfl) (by simp)
    have hdepth : depth [.word x :: ls ++ [.mark "\x7b"]].flatten = 1 := by
      rw [List.flatten_singleton, depth_append, hheader.depth, depth_open, Int.zero_add]
    have hinner := hb.stacked.append_closed hb.balanced.closed (by simpa using hclose)
    have hall := hopen.append (by rw [hdepth]; simpa using hinner)
    rw [← List.singleton_append, prettyLines_append, prettyLines_append, prettyLines_bare]
    exact hall
  balanced := by
    rw [flatten_blockRows]
    exact (Balanced.of_braceless (by simp [hls])).append hb.balanced.braces

end Laid

namespace Lays

theorem nil : Lays [] [] := fun l _ => ⟨[], rfl, .nil l.depth⟩

theorem append {items rest : List Item} {rows rows' : List (List Lexeme)} (hi : Lays items rows)
    (hr : Lays rest rows') : Lays (items ++ rest) (rows ++ rows') := by
  intro l hl
  obtain ⟨lines, hfold, hlines⟩ := hi l hl
  obtain ⟨lines', hfold', hlines'⟩ := hr { l with lines := lines.reverse ++ l.lines } hl
  refine ⟨lines ++ lines', ?_, hlines.append hlines'⟩
  rw [List.foldl_append, hfold, hfold']
  simp

theorem statement {pieces : List Piece} {x : String} {ls : List Lexeme}
    (h : Spells pieces (.word x :: ls)) (hls : Braceless ls) :
    Lays (pieces.map Item.piece ++ [.endStatement]) [.word x :: ls ++ [.mark ";"]] := by
  intro l hl
  refine ⟨[⟨l.depth, pieces, .statement⟩], ?_, .statement h hls l.depth⟩
  rw [List.foldl_append, Layout.foldl_put_pieces]
  simp [Layout.put, Layout.flush, hl]

/-- A block keeps the depth of what stands around it. -/
theorem block {pieces : List Piece} {body : List Item} {x : String} {ls : List Lexeme}
    {rows : List (List Lexeme)} (h : Spells pieces (.word x :: ls)) (hls : Braceless ls)
    (hb : Lays body rows) :
    Lays (pieces.map Item.piece ++ C.block body) (blockRows (.word x :: ls) rows) := by
  intro l hl
  obtain ⟨lines, hfold, hlines⟩ := hb
    { depth := l.depth + 1, pending := [], lines := ⟨l.depth, pieces, .opening⟩ :: l.lines } rfl
  refine ⟨⟨l.depth, pieces, .opening⟩ ::
    (lines ++ [⟨l.depth + 1, [], .bare⟩, ⟨l.depth, [], .closing⟩]), ?_, .block h hls hlines⟩
  rw [List.foldl_append, Layout.foldl_put_pieces, C.block, List.cons_append, List.foldl_cons,
    List.foldl_append]
  simp only [Layout.put, Layout.flush, hl, List.append_nil, List.reverse_reverse]
  rw [hfold]
  simp [Layout.put, Layout.flush]

end Lays

theorem tokenItems_eq (ts : List Token) : tokenItems ts = (ts.map Piece.token).map Item.piece := by
  simp [tokenItems]

theorem Lays.condition {k : Keyword} {w : String} {c : Condition} {body : List Item}
    {rows : List (List Lexeme)} (hw : (Token.keyword k).toC = w)
    (hc : ∀ t ∈ c.tokens, t.Legible) (hb : Lays body rows) :
    Lays (conditionHeader k c ++ C.block body) (blockRows (.word w :: parens c.lexemes) rows) := by
  have hp : Phrased (.keyword k :: .openParen :: (c.tokens ++ [.closeParen])) :=
    (Phrased.single rfl).append c.phrased.parens
  have hwf : ∀ t ∈ Token.keyword k :: .openParen :: (c.tokens ++ [.closeParen]),
      t.toLexeme.WellFormed := by
    simp only [List.forall_mem_cons, List.forall_mem_append]
    exact ⟨k.isWord_toC, Punctuation.symbol_mem_marks _, c.tokens_wellFormed hc,
      Punctuation.symbol_mem_marks _, by simp⟩
  have hspells : Spells ((.keyword k :: .openParen :: (c.tokens ++ [.closeParen])).map .token)
      (.word w :: parens c.lexemes) := by
    simpa [c.map_toLexeme, parens, Token.toLexeme, Punctuation.symbol, hw] using
      spells_tokens hp hwf
  have h := Lays.block hspells c.braceless.parens hb
  simpa [conditionHeader, tokenItems_eq, c.tokensThen_eq] using h

theorem Lays.otherwise {body : List Item} {rows : List (List Lexeme)} (hb : Lays body rows) :
    Lays (tokenItems [.keyword .else_] ++ C.block body) (blockRows [.word "else"] rows) := by
  have hwf : ∀ t ∈ [Token.keyword .else_], t.toLexeme.WellFormed := by
    rw [List.forall_mem_singleton]
    exact Keyword.isWord_toC .else_
  exact Lays.block (spells_tokens (Phrased.single rfl) hwf) braceless_nil hb

end C

end BareBones
