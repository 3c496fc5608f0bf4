import BareBones.Compile
import BareBones.Proofs.Acceptance
import BareBones.Proofs.C.Layouts

/-!
Both formats of a program have the same C tokens, and these are the ones that
`Program.lexemes` lists: no two neighbours run together and none is lost.
-/

namespace BareBones

open C
open C.Lexeme (parens braces)

/-! ## Statements -/

theorem isWord_counterName (k : Nat) : IsWord (counterName k) := by
  have hlist : (counterName k).toList = '_' :: ("dotimes".toList ++ (toString k).toList) := by
    simp [counterName]
  refine ⟨_, _, hlist, by decide, by decide, ?_⟩
  rw [List.forall_mem_append]
  exact ⟨List.all_eq_true.mp (by decide),
    fun c hc => isWordChar_of_isDigit ((toString_digits k).2 c hc)⟩

theorem isWord_limitName (k : Nat) : IsWord (limitName k) := by
  obtain ⟨c, cs, hx, hc, hd, hcs⟩ := isWord_counterName k
  refine ⟨c, cs ++ "_end".toList, by simp [limitName, hx], hc, hd, ?_⟩
  rw [List.forall_mem_append]
  exact ⟨hcs, List.all_eq_true.mp (by decide)⟩

namespace PrintArg

theorem toList_format (a : PrintArg) : a.format.toList = a.formatChars := by
  cases a with
  | var x => simp [format, formatChars]
  | text raw =>
    rw [format, escapePercent, String.toList_ofList, formatChars]
    induction raw.toList with
    | nil => rfl
    | cons c cs ih =>
      rw [List.flatMap_cons, ih, formatChars.doubled]
      split <;> rfl

theorem doubled_quotable {cs : List Char} (h : Quotable cs) :
    Quotable (formatChars.doubled cs) := by
  have hpercent : ∀ {ds : List Char}, Quotable ds → Quotable ('%' :: ds) :=
    fun hd => .plain (by decide) (by decide) (by decide) hd
  induction h with
  | nil => exact .nil
  | @escape c cs hn _ ih =>
    rw [formatChars.doubled, if_neg (by decide), formatChars.doubled]
    split
    · exact .escape (by decide) (hpercent ih)
    · exact .escape hn ih
  | plain hb hq hn _ ih =>
    rw [formatChars.doubled]
    split
    · exact hpercent (hpercent ih)
    · exact .plain hb hq hn ih

theorem formatChars_quotable {a : PrintArg} (h : a.token.Legible) :
    Quotable a.formatChars := by
  cases a with
  | text raw => exact doubled_quotable h
  | var x => exact quotable_conversion

theorem flatMap_formatChars_quotable {args : List PrintArg} (h : ∀ a ∈ args, a.token.Legible) :
    Quotable (args.flatMap formatChars) := by
  induction args with
  | nil => exact .nil
  | cons a args ih =>
    obtain ⟨ha, hargs⟩ := List.forall_mem_cons.mp h
    exact (formatChars_quotable ha).append (ih hargs)

theorem join_format (args : List PrintArg) :
    String.join (args.map format) = String.ofList (args.flatMap formatChars) := by
  rw [← String.toList_inj, String.toList_join, String.toList_ofList, List.flatMap_map]
  simp only [toList_format]

theorem flatMap_valueLexemes (args : List PrintArg) :
    (args.filterMap name?).flatMap (fun x => [Lexeme.mark ",", .word x]) =
      args.flatMap valueLexemes := by
  induction args with
  | nil => rfl
  | cons a args ih => cases a <;> simp [List.filterMap_cons, name?, valueLexemes, ih]

theorem lays_call {args : List PrintArg} (h : ∀ a ∈ args, a.token.Legible) :
    Lays (C.Statement.itemsAll [call args]) [lexemes args ++ [.mark ";"]] := by
  have hformat : Quotable (String.join (args.map format)).toList := by
    rw [join_format, String.toList_ofList]
    exact flatMap_formatChars_quotable h
  have hnames : ∀ x ∈ args.filterMap name?, IsWord x := by
    intro x hx
    obtain ⟨a, ha, hax⟩ := List.mem_filterMap.mp hx
    cases a with
    | text raw => cases hax
    | var y =>
      cases hax
      exact IsName.isWord (h _ ha)
  have hspells := spells_print hformat hnames
  rw [flatMap_valueLexemes, join_format] at hspells
  have hlays := Lays.statement hspells (PrintArg.braceless args).tail
  rw [call, join_format]
  simpa [C.Statement.itemsAll, C.Statement.items, lexemes] using hlays

end PrintArg

/-- The arguments of a `print` statement are among its tokens. -/
theorem PrintArg.token_mem_print {first : Located PrintArg} {more : List (Located PrintArg)}
    {a : PrintArg} (h : a ∈ (first :: more).map (·.val)) :
    a.token ∈ (Statement.print first more).tokens := by
  rw [Statement.tokens, PrintArg.furtherTokens]
  obtain ⟨b, hb, rfl⟩ := List.mem_map.mp h
  rcases List.mem_cons.mp hb with rfl | hb
  · simp
  · have hmem : b.val.token ∈ more.flatMap fun a => [.comma, a.val.token] :=
      List.mem_flatMap.mpr ⟨b, hb, by simp⟩
    simp [hmem]

theorem lays_assign {x : String} {e : Expr} (hx : IsName x) (he : ∀ t ∈ e.tokens, t.Legible) :
    Lays (C.Statement.itemsAll [.assign x e])
      [.word x :: .mark "=" :: (e.lexemes ++ [.mark ";"])] := by
  have hp : Phrased ([.id x] ++ .assign :: e.tokens) := (Phrased.single rfl).join e.phrased .assign
  have hwf : ∀ t ∈ [.id x] ++ .assign :: e.tokens, t.toLexeme.WellFormed := by
    simp only [List.cons_append, List.nil_append, List.forall_mem_cons]
    exact ⟨hx.isWord, Operator.toC_mem_marks _, e.tokens_wellFormed he⟩
  have hspells : Spells ((.id x :: Token.assign :: e.tokens).map .token)
      (.word x :: .mark "=" :: e.lexemes) := by
    simpa [e.map_toLexeme, Token.toLexeme, Token.toC, Token.lexeme, Operator.symbol] using
      spells_tokens hp hwf
  have h := Lays.statement hspells (by simp [e.braceless])
  simpa [C.Statement.itemsAll, C.Statement.items, tokenItems_eq] using h

theorem lays_loop {k : Nat} {b : Bound} {body : List Item} {rows : List (List Lexeme)}
    (hb : b.token.Legible) (h : Lays body rows) :
    Lays (.piece ((b.limit k).header (counterName k)) :: C.block body)
      (blockRows (b.lexemes k) rows) := by
  have hbraceless := b.braceless k
  cases b with
  | number n =>
    exact Lays.block (spells_loop_literal (isWord_counterName k) n.token_wellFormed)
      hbraceless.tail h
  | var x =>
    have hx : IsWord x := IsName.isWord hb
    exact Lays.block (spells_loop_copy (isWord_counterName k) (isWord_limitName k) hx)
      hbraceless.tail h

mutual

theorem Statement.lays (s : Statement) (k : Nat) (h : ∀ t ∈ s.tokens, t.Legible) :
    Lays (C.Statement.itemsAll (s.lower k)) (s.rows k) := by
  cases s with
  | declare x value =>
    cases value with
    | none => exact .nil
    | some e =>
      simp only [Statement.tokens, List.forall_mem_cons, List.forall_mem_append] at h
      exact lays_assign h.2.1 h.2.2.2.1
  | assign x e =>
    simp only [Statement.tokens, List.forall_mem_cons, List.forall_mem_append] at h
    exact lays_assign h.1 h.2.2.1
  | ifThen c body =>
    simp only [Statement.tokens, Condition.guard, braced, List.forall_mem_cons,
      List.forall_mem_append] at h
    obtain ⟨⟨-, -, hc, -⟩, -, hbody, -⟩ := h
    have hlays := Lays.condition (k := .if_) (w := "if") rfl hc (Statement.laysAll body k hbody)
    rw [Statement.lower, Statement.rows]
    simpa [C.Statement.itemsAll, C.Statement.items] using hlays
  | ifElse c body otherwise =>
    simp only [Statement.tokens, Condition.guard, braced, List.forall_mem_cons,
      List.forall_mem_append] at h
    obtain ⟨⟨⟨-, -, hc, -⟩, -, hbody, -⟩, -, -, hother, -⟩ := h
    have hif := Lays.condition (k := .if_) (w := "if") rfl hc (Statement.laysAll body k hbody)
    have helse := Lays.otherwise (Statement.laysAll otherwise (k + Statement.loopsAll body) hother)
    rw [Statement.lower, Statement.rows]
    simpa [C.Statement.itemsAll, C.Statement.items] using hif.append helse
  | whileDo c body =>
    simp only [Statement.tokens, Condition.guard, braced, List.forall_mem_cons,
      List.forall_mem_append] at h
    obtain ⟨⟨-, -, hc, -⟩, -, hbody, -⟩ := h
    have hlays :=
      Lays.condition (k := .while_) (w := "while") rfl hc (Statement.laysAll body k hbody)
    rw [Statement.lower, Statement.rows]
    simpa [C.Statement.itemsAll, C.Statement.items] using hlays
  | dotimes b body =>
    simp only [Statement.tokens, braced, List.forall_mem_cons, List.forall_mem_append] at h
    obtain ⟨⟨-, -, hb, -⟩, -, hbody, -⟩ := h
    have hlays := lays_loop (k := k) hb (Statement.laysAll body (k + 1) hbody)
    rw [Statement.lower, Statement.rows]
    simpa [C.Statement.itemsAll, C.Statement.items] using hlays
  | print first more =>
    rw [Statement.lower, Statement.rows]
    exact PrintArg.lays_call fun a ha => h a.token (PrintArg.token_mem_print ha)
  | read x =>
    have hx : IsName x.val := h (.id x.val) (by simp [Statement.tokens])
    have hlays := Lays.statement (spells_read hx.isWord) (by simp [parens])
    rw [Statement.lower, Statement.rows]
    simpa [C.Statement.itemsAll, C.Statement.items] using hlays

theorem Statement.laysAll (ss : List Statement) (k : Nat)
    (h : ∀ t ∈ Statement.tokensAll ss, t.Legible) :
    Lays (C.Statement.itemsAll (Statement.lowerAll k ss)) (Statement.rowsAll k ss) := by
  cases ss with
  | nil => exact .nil
  | cons s rest =>
    rw [Statement.tokensAll, List.forall_mem_append] at h
    rw [Statement.lowerAll, C.Statement.itemsAll_append, Statement.rowsAll]
    exact (s.lays k h.1).append (Statement.laysAll rest (k + s.loops) h.2)

end

/-! ## The whole text -/

namespace C

/-- A C text as its first line and the tokens of the others. -/
def read (text : String) : String × List Lexeme :=
  (String.ofList (text.toList.takeWhile (· ≠ '\n')), lex (text.toList.dropWhile (· ≠ '\n')))

theorem read_eq {text line : String} {rest : List Char} {ls : List Lexeme}
    (htext : text.toList = line.toList ++ '\n' :: rest) (hline : '\n' ∉ line.toList)
    (hrest : Settled rest ls) : read text = (line, ls) := by
  have hlex : lex rest = ls := by simpa [lex_nil] using hrest []
  have hall : ∀ c ∈ line.toList, decide (c ≠ '\n') = true := by
    intro c hc
    rw [decide_eq_true_eq]
    rintro rfl
    exact hline hc
  have hend : ∀ c ∈ ('\n' :: rest).head?, decide (c ≠ '\n') = false := by simp
  obtain ⟨htake, hdrop⟩ := takeWhile_append_of_head hall hend
  rw [read, htext, htake, hdrop, lex_blank (by decide), hlex, String.ofList_toList]

theorem settled_declaration {x : String} (hx : IsWord x) :
    Settled (declaration x).toList [.word "int", .word x, .mark ";"] := by
  have h := Settled.word isWord_int (by decide) (Settled.word hx (by decide) .semicolon).blank
  simpa [declaration] using h

theorem settled_declarations {f : String → List Char} {xs : List String}
    (h : ∀ x ∈ xs, Settled (f x) [.word "int", .word x, .mark ";"]) :
    Settled (xs.flatMap f) (xs.flatMap fun x => [.word "int", .word x, .mark ";"]) := by
  induction xs with
  | nil => exact .nil
  | cons x xs ih =>
    obtain ⟨hx, hxs⟩ := List.forall_mem_cons.mp h
    exact hx.append (ih hxs)

/-- `int main(void) {`, with or without the blank before the brace. -/
theorem settled_entry {cs : List Char} (hcs : Settled cs [.mark "\x7b"]) :
    Settled ("int main(void)".toList ++ cs)
      [.word "int", .word "main", .mark "(", .word "void", .mark ")", .mark "\x7b"] := by
  have hmain : IsWord "main" := .of_all rfl (by decide)
  have hvoid : IsWord "void" := .of_all rfl (by decide)
  have hclose := Settled.word hvoid (by decide) (Settled.closeParen.append hcs)
  have hopen := Settled.word hmain (by decide) (Settled.openParen.append hclose)
  exact Settled.word isWord_int (by decide) hopen.blank

theorem flatMap_nonempty_pretty (lines : List Line) :
    (nonempty .pretty lines).flatMap (fun l => (prettyLine l.1 l.2).toList) =
      lines.flatMap (lineChars .pretty) := by
  induction lines with
  | nil => rfl
  | cons l lines ih =>
    rw [List.flatMap_cons, ← ih, nonempty, List.map_cons, lineChars]
    by_cases h : l.text .pretty = ""
    · simp [h, nonempty]
    · simp [h, nonempty]

theorem flatMap_nonempty_compact (lines : List Line) :
    (nonempty .compact lines).flatMap (fun l => l.2.toList) =
      lines.flatMap (lineChars .compact) := by
  induction lines with
  | nil => rfl
  | cons l lines ih =>
    rw [List.flatMap_cons, ← ih, nonempty, List.map_cons, lineChars]
    by_cases h : l.text .compact = ""
    · simp [h, nonempty]
    · simp [h, nonempty]

theorem render_pretty (xs : List String) (lines : List Line) :
    render .pretty xs lines =
      "#include <stdio.h>\n\nint main(void) \x7b\n" ++
        String.join (xs.map fun x => prettyLine 0 (declaration x)) ++
        (if xs ≠ [] ∧ nonempty .pretty lines ≠ [] then "\n" else "") ++
        String.join ((nonempty .pretty lines).map fun l => prettyLine l.1 l.2) ++ "\x7d\n" := rfl

theorem render_compact (xs : List String) (lines : List Line) :
    render .compact xs lines =
      "#include <stdio.h>\nint main(void)\x7b" ++ String.join (xs.map declaration) ++
        String.join ((nonempty .compact lines).map (·.2)) ++ "\x7d\n" := rfl

/-- The rendered text is read as `main` around its declarations and its lines. -/
theorem read_render (f : Format) {xs : List String} {lines : List Line} {ls : List Lexeme}
    (hxs : ∀ x ∈ xs, IsWord x) (hlines : Settled (lines.flatMap (lineChars f)) ls) :
    read (render f xs lines) = ("#include <stdio.h>",
      [.word "int", .word "main"] ++ parens [.word "void"] ++
        braces ((xs.flatMap fun x => [.word "int", .word x, .mark ";"]) ++ ls)) := by
  have hdecls : ∀ x ∈ xs, Settled (declaration x).toList [.word "int", .word x, .mark ";"] :=
    fun x hx => settled_declaration (hxs x hx)
  have hend : Settled ['\x7d', '\n'] [.mark "\x7d"] :=
    Settled.closeCurly.append (Settled.blanks (by decide))
  have hline : '\n' ∉ "#include <stdio.h>".toList := by decide
  cases f with
  | pretty =>
    have hopen : Settled [' ', '\x7b', '\n'] [.mark "\x7b"] :=
      (Settled.openCurly.append (Settled.blanks (by decide))).blank
    have hgap : Settled (if xs ≠ [] ∧ nonempty .pretty lines ≠ [] then "\n" else "").toList [] := by
      split <;> exact .blanks (by decide)
    have hpretty := settled_declarations fun x hx => settled_prettyLine (hdecls x hx) 0
    have hall := (settled_entry hopen).append (hpretty.append (hgap.append (hlines.append hend)))
    have hnewline : Settled ['\n'] [] := .blanks (by decide)
    refine read_eq ?_ hline (by simpa [parens, braces] using hnewline.append hall)
    rw [render_pretty]
    simp [List.flatMap_map, ← flatMap_nonempty_pretty]
  | compact =>
    have hall := (settled_entry Settled.openCurly).append
      ((settled_declarations hdecls).append (hlines.append hend))
    refine read_eq ?_ hline (by simpa [parens, braces] using hall)
    rw [render_compact]
    simp [List.flatMap_map, ← flatMap_nonempty_compact]

end C

theorem Program.laid_lines {p : Program}
    (h : ∀ t ∈ Statement.tokensAll p.statements, t.Legible) :
    Laid 0 p.lines (Statement.rowsAll 0 p.statements) := by
  obtain ⟨lines, hfold, hlines⟩ := Statement.laysAll p.statements 0 h {} rfl
  have heq : p.lines = lines ++ [⟨0, [], .bare⟩] := by
    rw [Program.lines, Layout.ofItems, hfold]
    simp [Layout.finish, Layout.flush]
  rw [heq]
  simpa using hlines.append (.bare 0)

theorem Program.settled_lines {p : Program}
    (h : ∀ t ∈ Statement.tokensAll p.statements, t.Legible) (f : Format) :
    Settled (p.lines.flatMap (lineChars f)) (Statement.lexemesAll 0 p.statements) := by
  rw [← Statement.flatten_rowsAll]
  exact (Program.laid_lines h).settled f

theorem Token.WellFormed.legible_of_reading {t u : Token} (hu : u.WellFormed)
    (h : u.reading = t.reading) : t.Legible := by
  cases t with
  | id x =>
    cases u <;> cases h
    exact hu.1
  | str text =>
    cases u <;> cases h
    exact hu
  | _ => trivial

/-- Names and texts come from the source as they are. -/
theorem Source.parse_legible {s : Source} {p : Program} (h : s.parse = .ok p) :
    ∀ t ∈ Statement.tokensAll p.statements, t.Legible := by
  intro t ht
  have hr := List.mem_map_of_mem (f := Token.reading) ht
  rw [(Source.parse_spelled h).1] at hr
  obtain ⟨u, hu, hut⟩ := List.mem_map.mp hr
  exact (Source.wellFormed_of_mem_words hu).legible_of_reading hut

/-- An accepted source is compiled to the same C tokens in both formats, and these
are the tokens of its tree. -/
theorem Source.read_compile {s : Source} {p : Program} (h : s.parse = .ok p) :
    ∃ pretty compact, s.compile .pretty = .ok pretty ∧ s.compile .compact = .ok compact ∧
      C.read pretty = C.read compact ∧ C.read compact = ("#include <stdio.h>", p.lexemes) := by
  have hread (f : Format) : C.read (p.toC f) = ("#include <stdio.h>", p.lexemes) :=
    read_render f (fun _ hx => (Source.isName_of_mem_declarations h hx).isWord)
      (Program.settled_lines (Source.parse_legible h) f)
  have hcompile (f : Format) : s.compile f = .ok (p.toC f) := by rw [Source.compile, h]
  exact ⟨_, _, hcompile .pretty, hcompile .compact, by rw [hread, hread], hread .compact⟩

/-- Nested loops, an escaped quote, a percent sign and a negated group. -/
def Source.nestedLoops : Source where
  name := "nested"
  text := "let x = 2; dotimes(x) \x7b dotimes(3) \x7b print(\"50% \\\"\", x); \x7d \x7d\n" ++
    "if (!(x < 3) and x) \x7b x = (x - 1) / 2; \x7d else \x7b read(x); \x7d"

theorem Source.read_compile_nestedLoops :
    ∃ p, nestedLoops.parse = .ok p ∧ ∃ pretty compact,
      nestedLoops.compile .pretty = .ok pretty ∧ nestedLoops.compile .compact = .ok compact ∧
        C.read pretty = C.read compact ∧ C.read compact = ("#include <stdio.h>", p.lexemes) := by
  have hok : nestedLoops.parse.isOk = true := by decide +kernel
  cases hp : nestedLoops.parse with
  | ok p => exact ⟨p, rfl, Source.read_compile hp⟩
  | error e =>
    rw [hp] at hok
    cases hok

end BareBones
