import BareBones.Proofs.C.Formats

/-!
Blocks and margins of the compiled text. In both formats the braces of the text are
balanced and the last one closes the first. In the pretty format each statement, each
header of a block and each brace that ends one has a line of its own, and the margin
of a line is what the braces before it say.
-/

namespace BareBones

open C
open C.Lexeme (parens braces)

namespace C

/-- Braces are opened before they are closed, and the one that closes the first is the
last of all. -/
structure Enclosed (ls : List Lexeme) : Prop where
  nonneg : ∀ pre, pre <+: ls → 0 ≤ depth pre
  closed_iff : ∀ pre post, ls = pre ++ .mark "\x7d" :: post →
    (depth (pre ++ [.mark "\x7d"]) = 0 ↔ .mark "\x7d" ∉ post)
  ends : ls.getLast? = some (.mark "\x7d")

theorem Balanced.enclosed {head body : List Lexeme} (hh : Braceless head) (hb : Balanced body) :
    Enclosed (head ++ Lexeme.braces body) where
  nonneg := ((Balanced.of_braceless hh).append hb.braces).nonneg
  closed_iff _ _ heq := Balanced.closed_iff hh hb heq
  ends := by
    rw [Lexeme.braces, ← List.cons_append, ← List.append_assoc, List.getLast?_concat]

/-- Behind its `#include` the text is `lines`. Those that are not empty hold `rows`, one
each, and stand as far in as the braces before them say. -/
structure Typeset (text : String) (lines : List (List Char)) (rows : List (List Lexeme)) :
    Prop where
  joined : text.toList = ("#include <stdio.h>".toList :: lines).flatMap (· ++ ['\n'])
  unbroken : ∀ line ∈ lines, '\n' ∉ line
  holds : (lines.filter (· ≠ [])).map lex = rows
  isRow : ∀ row ∈ rows, IsRow row
  setIn : ∀ before line after, lines = before ++ line :: after → line ≠ [] →
    SetIn (depth (lex (before.flatMap (· ++ ['\n'])))) line

theorem Stacked.typeset {text : String} {lines : List (List Char)} {rows : List (List Lexeme)}
    (h : Stacked 0 lines rows)
    (htext : text.toList = ("#include <stdio.h>".toList :: lines).flatMap (· ++ ['\n'])) :
    Typeset text lines rows where
  joined := htext
  unbroken := h.newline_notMem
  holds := h.map_lex
  isRow := h.isRow
  setIn before line after hsplit hne := by
    rw [hsplit] at h
    simpa using h.setIn hne

/-- The lines inside of `main`: declarations, a blank line if both parts are there, and
the statements. -/
def mainLines (xs : List String) (lines : List Line) : List (List Char) :=
  xs.map (fun x => (indentation 1 ++ declaration x).toList) ++
    ((if xs ≠ [] ∧ prettyLines lines ≠ [] then [[]] else []) ++ prettyLines lines)

theorem flatMap_prettyLines (lines : List Line) :
    (prettyLines lines).flatMap (· ++ ['\n']) =
      (nonempty .pretty lines).flatMap fun l => (prettyLine l.1 l.2).toList := by
  simp [prettyLines, prettyLine, List.flatMap_map]

theorem prettyLines_eq_nil_iff (lines : List Line) :
    prettyLines lines = [] ↔ nonempty .pretty lines = [] := by
  simp [prettyLines]

/-- The pretty text, line by line. -/
theorem toList_render_pretty (xs : List String) (lines : List Line) :
    (render .pretty xs lines).toList =
      ("#include <stdio.h>".toList :: [] :: "int main(void) \x7b".toList ::
        (mainLines xs lines ++ [['\x7d']])).flatMap (· ++ ['\n']) := by
  have hgap : (if xs ≠ [] ∧ nonempty .pretty lines ≠ [] then "\n" else "").toList =
      (if xs ≠ [] ∧ prettyLines lines ≠ [] then [[]] else []).flatMap (· ++ ['\n']) := by
    simp only [ne_eq, prettyLines_eq_nil_iff]
    split <;> rfl
  rw [render_pretty]
  simp only [String.toList_append, hgap, List.flatMap_cons, List.flatMap_append, mainLines,
    flatMap_prettyLines]
  simp [List.flatMap_map, prettyLine]

theorem ne_nil_of_mem_prettyLines {lines : List Line} {line : List Char}
    (h : line ∈ prettyLines lines) : line ≠ [] := by
  obtain ⟨l, hl, rfl⟩ := List.mem_map.mp h
  have hne : l.2 ≠ "" := by simpa using (List.mem_filter.mp hl).2
  simp [hne]

theorem count_nil_mainLines (xs : List String) (lines : List Line) :
    (mainLines xs lines).count [] = if xs ≠ [] ∧ prettyLines lines ≠ [] then 1 else 0 := by
  have hdecls : [] ∉ xs.map fun x => (indentation 1 ++ declaration x).toList := by
    simp [declaration]
  have hlines : [] ∉ prettyLines lines := fun h => ne_nil_of_mem_prettyLines h rfl
  rw [mainLines, List.count_append, List.count_append, List.count_eq_zero_of_not_mem hdecls,
    List.count_eq_zero_of_not_mem hlines]
  split <;> simp

/-- Without blank lines there are as many lines as rows. -/
theorem Laid.prettyLines_eq_nil_iff {d : Nat} {lines : List Line} {rows : List (List Lexeme)}
    (h : Laid d lines rows) : prettyLines lines = [] ↔ rows = [] := by
  have hfilter : (prettyLines lines).filter (· ≠ []) = prettyLines lines :=
    List.filter_eq_self.mpr fun line hl => by simpa using ne_nil_of_mem_prettyLines hl
  have hmap := h.stacked.map_lex
  rw [hfilter] at hmap
  rw [← hmap, List.map_eq_nil_iff]

theorem stacked_declarations {xs : List String} (h : ∀ x ∈ xs, IsWord x) :
    Stacked 1 (xs.map fun x => (indentation 1 ++ declaration x).toList)
      (xs.map declarationRow) := by
  induction xs with
  | nil => exact .nil
  | cons x xs ih =>
    obtain ⟨hx, hxs⟩ := List.forall_mem_cons.mp h
    have hnewline : '\n' ∉ x.toList := Lexeme.newline_notMem_spelling (l := .word x) hx
    have hbraceless : Braceless [.word "int", .word x] := by simp
    refine .row ⟨?_, ?_, ⟨1, 'i', "nt ".toList ++ x.toList ++ [';'], ?_, by decide, by simp⟩, ?_⟩ ?_
    · simpa [declarationRow] using (settled_indentation 1).append (settled_declaration hx)
    · simp [indentation, declaration, hnewline]
    · simp [indentation, declaration]
    · exact Or.inr ⟨_, hbraceless, by simp, Or.inl rfl⟩
    · rw [Braceless.depth (by simp [declarationRow])]
      exact ih hxs

end C

/-- The lines of the pretty text hold the rows of the program. -/
theorem Program.stacked_render {p : Program} (hdecls : ∀ x ∈ p.declarations, IsWord x)
    (h : ∀ t ∈ Statement.tokensAll p.statements, t.Legible) :
    Stacked 0 ([] :: "int main(void) \x7b".toList ::
      (mainLines p.declarations p.lines ++ [['\x7d']])) p.rows := by
  have hlaid := Program.laid_lines h
  have hheader : Braceless ([.word "int", .word "main"] ++ parens [.word "void"]) := by
    simp [parens]
  have hopen : OnLine 0 "int main(void) \x7b".toList
      ([.word "int", .word "main"] ++ parens [.word "void"] ++ [.mark "\x7b"]) := by
    refine ⟨settled_entry Settled.openCurly.blank, by decide, ?_, ?_⟩
    · exact ⟨0, 'i', "nt main(void) \x7b".toList, rfl, by decide, rfl⟩
    · exact Or.inr ⟨_, hheader, by simp, Or.inr rfl⟩
  have hclose : OnLine 1 ['\x7d'] [.mark "\x7d"] :=
    ⟨.closeCurly, by decide, ⟨0, '\x7d', [], rfl, by decide, rfl⟩, Or.inl rfl⟩
  have hbody : Stacked 1 ((if p.declarations ≠ [] ∧ prettyLines p.lines ≠ [] then [[]] else []) ++
      prettyLines p.lines) (Statement.rowsAll 0 p.statements) := by
    split
    · exact .blank hlaid.stacked
    · exact hlaid.stacked
  have hzero := (braceless_declarations p.declarations).depth
  have hinner := (stacked_declarations hdecls).append_closed hzero hbody
  have hclosed : depth (p.declarations.map declarationRow ++
      Statement.rowsAll 0 p.statements).flatten = 0 := by
    rw [List.flatten_append, depth_append, hzero, hlaid.balanced.closed]
    rfl
  refine .blank (.row hopen ?_)
  rw [depth_append, hheader.depth, depth_open]
  exact hinner.append_closed hclosed (.single hclose)

theorem Program.enclosed_rows {p : Program}
    (h : ∀ t ∈ Statement.tokensAll p.statements, t.Legible) : Enclosed p.rows.flatten := by
  have hdecls := Balanced.of_braceless (braceless_declarations p.declarations)
  rw [Program.rows, flatten_blockRows, List.flatten_append]
  exact Balanced.enclosed (by simp [parens]) (hdecls.append (Program.laid_lines h).balanced)

/-- The compiled text of an accepted source is one block that the last brace closes, in
both formats. The pretty format has a line for each row, set in by the braces that are
open where it begins, and at most one blank line in `main`: between declarations and
statements. -/
theorem Source.compile_nesting {s : Source} {p : Program} (h : s.parse = .ok p) :
    (∀ f, ∃ text, s.compile f = .ok text ∧ (C.read text).2 = p.rows.flatten ∧
      Enclosed (C.read text).2) ∧
    ∃ text inner, s.compile .pretty = .ok text ∧
      Typeset text ([] :: "int main(void) \x7b".toList :: (inner ++ [['\x7d']])) p.rows ∧
      inner.count [] =
        if p.declarations ≠ [] ∧ Statement.rowsAll 0 p.statements ≠ [] then 1 else 0 := by
  have hdecls : ∀ x ∈ p.declarations, IsWord x :=
    fun _ hx => (Source.isName_of_mem_declarations h hx).isWord
  have hlegible := Source.parse_legible h
  have hlaid := Program.laid_lines hlegible
  have hcompile (f : Format) : s.compile f = .ok (p.toC f) := by rw [Source.compile, h]
  have hread (f : Format) : (C.read (p.toC f)).2 = p.rows.flatten := by
    rw [p.flatten_rows, Program.toC, read_render f hdecls (Program.settled_lines hlegible f)]
    rfl
  refine ⟨fun f => ⟨_, hcompile f, hread f, hread f ▸ Program.enclosed_rows hlegible⟩, ?_⟩
  refine ⟨_, mainLines p.declarations p.lines, hcompile .pretty, ?_, ?_⟩
  · exact (Program.stacked_render hdecls hlegible).typeset (toList_render_pretty _ _)
  · rw [count_nil_mainLines]
    simp only [ne_eq, hlaid.prettyLines_eq_nil_iff]

/-- Empty blocks, a block whose only statement leaves no line, and braces in a text. -/
def Source.hollowBlocks : Source where
  name := "hollow"
  text := "let x; while (x) \x7b \x7d if (x < 1) \x7b let y; \x7d else \x7b\n" ++
    "dotimes(2) \x7b print(\"\x7d\x7d \x7b\", y); \x7d \x7d"

theorem Source.compile_nesting_hollowBlocks :
    ∃ p, hollowBlocks.parse = .ok p ∧
      (∀ f, ∃ text, hollowBlocks.compile f = .ok text ∧ (C.read text).2 = p.rows.flatten ∧
        Enclosed (C.read text).2) ∧
      ∃ text inner, hollowBlocks.compile .pretty = .ok text ∧
        Typeset text ([] :: "int main(void) \x7b".toList :: (inner ++ [['\x7d']])) p.rows ∧
        inner.count [] =
          if p.declarations ≠ [] ∧ Statement.rowsAll 0 p.statements ≠ [] then 1 else 0 := by
  have hok : hollowBlocks.parse.isOk = true := by decide +kernel
  cases hp : hollowBlocks.parse with
  | ok p => exact ⟨p, rfl, Source.compile_nesting hp⟩
  | error e =>
    rw [hp] at hok
    cases hok

end BareBones
