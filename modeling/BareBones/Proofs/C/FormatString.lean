import BareBones.Proofs.C.Occurrences
import BareBones.Proofs.C.Pieces

/-!
The format strings of `printf`. What a `print` statement is given can be read off the
call that it is compiled to: a doubled percent sign is one of a text, a conversion
stands for the next variable, and there is no other percent sign
(`PrintArg.readFormat_flatMap`). The quotes around the format are those that the call
is written with, whatever the texts contain (`Source.print_arguments_recovered`).
-/

namespace BareBones

open C.Lexeme (parens braces)

namespace C

/-- What a format string prints: the text before the first variable, and each variable
with the text behind it. A doubled percent sign stands for one, a conversion `%d` for
the next of the values; there must be as many of these as values and no other use of
a percent sign. -/
def readFormat : List Char → List String → Option (List Char × List (String × List Char))
  | [], [] => some ([], [])
  | [], _ :: _ => none
  | '%' :: '%' :: cs, values => (readFormat cs values).map fun r => ('%' :: r.1, r.2)
  | '%' :: 'd' :: cs, x :: values => (readFormat cs values).map fun r => ([], (x, r.1) :: r.2)
  | '%' :: _, _ => none
  | c :: cs, values => (readFormat cs values).map fun r => (c :: r.1, r.2)

theorem readFormat_plain {c : Char} (hc : c ≠ '%') (cs : List Char) (values : List String) :
    readFormat (c :: cs) values = (readFormat cs values).map fun r => (c :: r.1, r.2) := by
  rw [readFormat] <;> simp [hc]

end C

namespace PrintArg

/-- The arguments with neighbouring texts joined: the text before the first variable,
and each variable with the text behind it. -/
def joined : List PrintArg → List Char × List (String × List Char)
  | [] => ([], [])
  | text raw :: args => (raw.toList ++ (joined args).1, (joined args).2)
  | var x :: args => ([], (x, (joined args).1) :: (joined args).2)

/-- Joining texts leaves the variables as they are. -/
theorem map_fst_joined (args : List PrintArg) :
    (joined args).2.map Prod.fst = args.filterMap name? := by
  induction args with
  | nil => rfl
  | cons a args ih => cases a <;> simp [joined, List.filterMap_cons, name?, ih]

/-- No percent sign of a text is taken for the beginning of a conversion, whatever the
text ends with and whatever follows it. -/
theorem readFormat_doubled (raw rest : List Char) (values : List String) :
    C.readFormat (formatChars.doubled raw ++ rest) values =
      (C.readFormat rest values).map fun r => (raw ++ r.1, r.2) := by
  induction raw with
  | nil => simp [formatChars.doubled]
  | cons c raw ih =>
    rw [formatChars.doubled]
    split
    · rename_i hc
      subst hc
      rw [List.cons_append, List.cons_append, C.readFormat, ih, Option.map_map]
      rfl
    · rename_i hc
      rw [List.cons_append, C.readFormat_plain hc, ih, Option.map_map]
      rfl

/-- A format is read as the arguments that it was made from. -/
theorem readFormat_flatMap (args : List PrintArg) :
    C.readFormat (args.flatMap formatChars) (args.filterMap name?) = some (joined args) := by
  induction args with
  | nil => rfl
  | cons a args ih =>
    cases a with
    | text raw =>
      rw [List.flatMap_cons, formatChars, readFormat_doubled, List.filterMap_cons_none rfl, ih]
      rfl
    | var x =>
      show C.readFormat ('%' :: 'd' :: args.flatMap formatChars) (x :: args.filterMap name?) = _
      rw [C.readFormat, ih]
      rfl

/-- The characters of the call that prints `args`. -/
def callChars (f : C.Format) (args : List PrintArg) : List Char :=
  "printf(\"".toList ++ (args.flatMap formatChars ++ '"' ::
    ((args.filterMap name?).flatMap (fun x => (f.behind ",").toList ++ x.toList) ++ [')']))

theorem chars_call (f : C.Format) (args : List PrintArg) :
    C.Piece.chars f (.print (String.join (args.map format)) (args.filterMap name?)) =
      callChars f args := by
  have hquote : "\"".toList = ['"'] := by decide
  have hclose : ")".toList = [')'] := by decide
  unfold C.Piece.chars C.Piece.text callChars
  simp only [join_format, String.toList_append, String.toList_ofList, String.toList_join,
    List.flatMap_map, hquote, hclose, List.append_assoc, List.cons_append,
    List.nil_append]

end PrintArg

/-! ## The calls of a program -/

namespace C

/-- The characters of a piece that is a call of `printf`. -/
def Piece.call? (f : Format) : Piece → Option (List Char)
  | .print format args => some (Piece.chars f (.print format args))
  | .token _ | .read _ | .loop .. => none

/-- The calls of `printf` among some items. -/
def calls (f : Format) (items : List Item) : List (List Char) :=
  (items.filterMap Item.piece?).filterMap (Piece.call? f)

theorem calls_append (f : Format) (items rest : List Item) :
    calls f (items ++ rest) = calls f items ++ calls f rest := by
  simp [calls]

theorem calls_tokenItems (f : Format) (ts : List Token) : calls f (tokenItems ts) = [] := by
  simp [calls, tokenItems, List.filterMap_map, Function.comp_def, Item.piece?, Piece.call?]

theorem calls_block (f : Format) (items : List Item) : calls f (block items) = calls f items := by
  simp [calls, block, Item.piece?, List.filterMap_cons]

@[simp] theorem calls_nil (f : Format) : calls f [] = [] := rfl

theorem calls_endStatement (f : Format) : calls f [.endStatement] = [] := rfl

/-- The header of a loop is no call. -/
theorem calls_header (f : Format) (counter : String) (limit : Limit) (items : List Item) :
    calls f (.piece (limit.header counter) :: items) = calls f items := by
  cases limit <;> rfl

theorem calls_conditionHeader (f : Format) (k : Keyword) (c : Condition) :
    calls f (conditionHeader k c) = [] :=
  calls_tokenItems f _

theorem calls_assign (f : Format) (x : String) (e : Expr) :
    calls f (C.Statement.itemsAll [.assign x e]) = [] := by
  rw [Statement.itemsAll, Statement.items, Statement.itemsAll, List.append_nil, calls_append,
    calls_tokenItems, calls_endStatement, List.append_nil]

/-- The calls are some of the pieces. -/
theorem calls_sublist (f : Format) (items : List Item) :
    (calls f items).Sublist ((items.filterMap Item.piece?).map (Piece.chars f)) := by
  have hcall : ∀ {p : Piece} {cs : List Char}, p.call? f = some cs → p.chars f = cs := by
    intro p cs h
    cases p <;> simp_all [Piece.call?]
  unfold calls
  induction items.filterMap Item.piece? with
  | nil => exact .slnil
  | cons p pieces ih =>
    cases h : p.call? f with
    | none =>
      rw [List.filterMap_cons_none h]
      exact .cons _ ih
    | some cs =>
      rw [List.filterMap_cons_some h, List.map_cons, hcall h]
      exact .cons_cons _ ih

end C

mutual

theorem Statement.calls_items (f : C.Format) (k : Nat) (s : Statement) :
    C.calls f (C.Statement.itemsAll (s.lower k)) =
      (s.preorder.filterMap Statement.arguments?).map (PrintArg.callChars f) := by
  cases s with
  | declare x value =>
    cases value with
    | none => rfl
    | some e => exact C.calls_assign f x.val e
  | assign x e => exact C.calls_assign f x.val e
  | ifThen c body =>
    have hb := Statement.calls_itemsAll f k body
    rw [Statement.preorder, List.filterMap_cons_none rfl]
    simpa [Statement.lower, C.Statement.itemsAll, C.Statement.items, C.calls_append,
      C.calls_conditionHeader, C.calls_block] using hb
  | ifElse c body otherwise =>
    have hb := Statement.calls_itemsAll f k body
    have ho := Statement.calls_itemsAll f (k + Statement.loopsAll body) otherwise
    rw [Statement.preorder, List.filterMap_cons_none rfl]
    simpa [Statement.lower, C.Statement.itemsAll, C.Statement.items, C.calls_append,
      C.calls_conditionHeader, C.calls_tokenItems, C.calls_block] using congrArg₂ (· ++ ·) hb ho
  | whileDo c body =>
    have hb := Statement.calls_itemsAll f k body
    rw [Statement.preorder, List.filterMap_cons_none rfl]
    simpa [Statement.lower, C.Statement.itemsAll, C.Statement.items, C.calls_append,
      C.calls_conditionHeader, C.calls_block] using hb
  | dotimes b body =>
    have hb := Statement.calls_itemsAll f (k + 1) body
    rw [Statement.preorder, List.filterMap_cons_none rfl]
    simpa [Statement.lower, C.Statement.itemsAll, C.Statement.items, C.calls_header,
      C.calls_block] using hb
  | print first more => exact congrArg (fun cs => [cs]) (PrintArg.chars_call f _)
  | read x => rfl

theorem Statement.calls_itemsAll (f : C.Format) (k : Nat) (ss : List Statement) :
    C.calls f (C.Statement.itemsAll (Statement.lowerAll k ss)) =
      ((Statement.preorderAll ss).filterMap Statement.arguments?).map (PrintArg.callChars f) := by
  cases ss with
  | nil => rfl
  | cons s rest =>
    rw [Statement.lowerAll, C.Statement.itemsAll_append, C.calls_append, s.calls_items f k,
      Statement.calls_itemsAll f (k + s.loops) rest, Statement.preorderAll, List.filterMap_append,
      List.map_append]

end

/-- The calls stand in the C text as they are, in the order of the `print` statements. -/
theorem Program.calls_inOrder (p : Program) (f : C.Format) :
    C.InOrder (p.prints.map (PrintArg.callChars f)) (p.toC f).toList := by
  have hcalls := Statement.calls_itemsAll f 0 p.statements
  have hpieces := C.calls_sublist f (C.Statement.itemsAll (Statement.lowerAll 0 p.statements))
  rw [hcalls] at hpieces
  exact (p.pieces_inOrder f).sublist hpieces

/-! ## The texts of a program -/

mutual

/-- A statement is written with the tokens of all statements in it. -/
theorem Statement.tokens_subset (s : Statement) {inner : Statement} (h : inner ∈ s.preorder) :
    inner.tokens ⊆ s.tokens := by
  cases s with
  | declare x value => simp_all [Statement.preorder]
  | assign x e => simp_all [Statement.preorder]
  | ifThen c body =>
    rcases List.mem_cons.mp h with rfl | h
    · exact fun _ ht => ht
    · intro t ht
      simp [Statement.tokens, braced, Statement.tokensAll_subset body h ht]
  | ifElse c body otherwise =>
    rcases List.mem_cons.mp h with rfl | h
    · exact fun _ ht => ht
    · intro t ht
      rcases List.mem_append.mp h with h | h
      · simp [Statement.tokens, braced, Statement.tokensAll_subset body h ht]
      · simp [Statement.tokens, braced, Statement.tokensAll_subset otherwise h ht]
  | whileDo c body =>
    rcases List.mem_cons.mp h with rfl | h
    · exact fun _ ht => ht
    · intro t ht
      simp [Statement.tokens, braced, Statement.tokensAll_subset body h ht]
  | dotimes b body =>
    rcases List.mem_cons.mp h with rfl | h
    · exact fun _ ht => ht
    · intro t ht
      simp [Statement.tokens, braced, Statement.tokensAll_subset body h ht]
  | print first more => simp_all [Statement.preorder]
  | read x => simp_all [Statement.preorder]

theorem Statement.tokensAll_subset (ss : List Statement) {inner : Statement}
    (h : inner ∈ Statement.preorderAll ss) : inner.tokens ⊆ Statement.tokensAll ss := by
  cases ss with
  | nil => cases h
  | cons s rest =>
    rw [Statement.tokensAll]
    rcases List.mem_append.mp h with h | h
    · exact fun _ ht => List.mem_append_left _ (s.tokens_subset h ht)
    · exact fun _ ht => List.mem_append_right _ (Statement.tokensAll_subset rest h ht)

end

/-- The texts and variables that an accepted program prints are written as in the source. -/
theorem Source.legible_of_mem_prints {s : Source} {p : Program} (h : s.parse = .ok p)
    {args : List PrintArg} (hargs : args ∈ p.prints) : ∀ a ∈ args, a.token.Legible := by
  obtain ⟨inner, hinner, harguments⟩ := List.mem_filterMap.mp hargs
  cases inner with
  | print first more =>
    cases harguments
    exact fun a ha => Source.parse_legible h _
      (Statement.tokensAll_subset p.statements hinner (PrintArg.token_mem_print ha))
  | _ => cases harguments

/-- The arguments of `print` can be recovered from the C text, in both formats. The calls
of `printf` in the text are those of the `print` statements, in order, and each stands
there with the characters of `PrintArg.callChars`. Behind its opening quote the format ends
at the quote that it is written with, on the same line; and read with its variables it
gives back the arguments of the statement, with the texts between two variables as they
are in the source. -/
theorem Source.print_arguments_recovered {s : Source} {p : Program} (h : s.parse = .ok p)
    (f : C.Format) :
    (Statement.tokensAll p.statements).map Token.reading = s.words.map Token.reading ∧
    ∃ text, s.compile f = .ok text ∧
      C.read text = ("#include <stdio.h>",
        [.word "int", .word "main"] ++ parens [.word "void"] ++ braces p.body) ∧
      C.occurrences C.printCall? p.body = p.prints.map (fun args =>
        ⟨String.ofList (args.flatMap PrintArg.formatChars), args.filterMap PrintArg.name?⟩) ∧
      C.InOrder (p.prints.map (PrintArg.callChars f)) text.toList ∧
      ∀ args ∈ p.prints,
        '\n' ∉ args.flatMap PrintArg.formatChars ∧
        (∀ behind, C.quoted? (args.flatMap PrintArg.formatChars ++ '"' :: behind) =
          some (args.flatMap PrintArg.formatChars, behind)) ∧
        C.readFormat (args.flatMap PrintArg.formatChars) (args.filterMap PrintArg.name?) =
          some (PrintArg.joined args) ∧
        (PrintArg.joined args).2.map Prod.fst = args.filterMap PrintArg.name? := by
  obtain ⟨text, htext, hread⟩ := Source.compile_body h f
  have htoC : text = p.toC f := by
    rw [Source.compile, h] at htext
    exact (Except.ok.inj htext).symm
  refine ⟨(Source.parse_spelled h).1, text, htext, hread, p.occurrences_printCall?, ?_, ?_⟩
  · rw [htoC]
    exact p.calls_inOrder f
  · intro args hargs
    have hquotable : Quotable (args.flatMap PrintArg.formatChars) :=
      PrintArg.flatMap_formatChars_quotable (Source.legible_of_mem_prints h hargs)
    exact ⟨hquotable.newline_notMem, C.quoted?_quotable hquotable,
      PrintArg.readFormat_flatMap args, PrintArg.map_fst_joined args⟩

/-- A text that ends with a percent sign before a variable, the letter `d` behind the
variable, an escaped quote, and a backslash before a percent sign. -/
def Source.percentSigns : Source where
  name := "signs"
  text := "let x; let y; print(\"100%\", x, \"d\\\"\", \"%\", y, \"\\%\");"

theorem Source.print_arguments_recovered_percentSigns :
    ∃ p text, percentSigns.parse = .ok p ∧ percentSigns.compile .compact = .ok text ∧
      p.prints = [[.text "100%", .var "x", .text "d\\\"", .text "%", .var "y", .text "\\%"]] ∧
      C.InOrder ["printf(\"100%%%dd\\\"%%%d\\%%\",x,y)".toList] text.toList ∧
      C.quoted? "100%%%dd\\\"%%%d\\%%\",x,y);\x7d\n".toList =
        some ("100%%%dd\\\"%%%d\\%%".toList, ",x,y);\x7d\n".toList) ∧
      C.readFormat "100%%%dd\\\"%%%d\\%%".toList ["x", "y"] =
        some ("100%".toList, [("x", "d\\\"%".toList), ("y", "\\%".toList)]) := by
  have htest : percentSigns.parse.toOption.any (fun p => p.prints ==
      [[.text "100%", .var "x", .text "d\\\"", .text "%", .var "y", .text "\\%"]]) = true := by
    decide +kernel
  obtain ⟨p, hp, hfacts⟩ := Source.exists_of_test htest
  have hprints : p.prints =
      [[.text "100%", .var "x", .text "d\\\"", .text "%", .var "y", .text "\\%"]] := by
    simpa using hfacts
  obtain ⟨-, text, htext, -, -, hcalls, hargs⟩ := Source.print_arguments_recovered hp .compact
  rw [hprints] at hcalls hargs
  obtain ⟨-, hquoted, hread, -⟩ := hargs _ (List.mem_singleton_self _)
  exact ⟨p, text, hp, htext, hprints, hcalls, hquoted ",x,y);\x7d\n".toList, hread⟩

end BareBones
