import BareBones.Proofs.Hoisting
import BareBones.Proofs.Printing

/-!
Variables whose names already mean something in C. A variable may be called whatever is
no word of the source language (`exists_declared_iff`), so it may take the name of a
keyword of C or of a function that the body of `main` calls. The generated declarations
are lawful C exactly for the sources whose `let`s avoid these names.
-/

namespace BareBones

open C (Lexeme)
open C.Lexeme (parens braces)

/-! ## Names that can be declared -/

theorem notMem_reservedWords_of_ofWord {x : String} (h : Token.ofWord x = .id x) :
    x ∉ reservedWords := by
  have hall : ∀ w ∈ reservedWords, Token.ofWord w ≠ .id w := by decide
  exact fun hx => hall x hx h

/-- The source `let x ;`. -/
def Source.lone (x : String) : Source where
  name := "lone"
  text := String.ofList (Token.spaced [.keyword .let_, .id x, .semicolon])

theorem Source.lone_words {x : String} (hx : IsName x) (hr : x ∉ reservedWords) :
    (Source.lone x).words = [.keyword .let_, .id x, .semicolon] := by
  refine Source.words_spaced "lone" fun t ht => ?_
  simp only [List.mem_cons, List.not_mem_nil, or_false] at ht
  rcases ht with rfl | rfl | rfl
  · trivial
  · exact ⟨hx, Token.ofWord_of_notMem hr⟩
  · trivial

theorem Source.lone_parse {x : String} (hx : IsName x) (hr : x ∉ reservedWords) :
    ∃ p, (Source.lone x).parse = .ok p := by
  have hwords := Source.lone_words hx hr
  have hderives := Statement.tokensAll_derives [.declare ⟨x, .nowhere⟩ none]
  refine Source.parse_of_sentence ?_ ?_ ?_
  · rw [hwords, List.map_append]
    exact .program hderives
  · intro d hd
    simp [hwords] at hd
  · rw [hwords, ← Naming.run_isSome_iff]
    simp [Naming.run, Naming.step]

/-- A name can be declared exactly when it is no word of the language. -/
theorem exists_declared_iff (x : String) :
    (∃ s p, Source.parse s = .ok p ∧ x ∈ p.declarations) ↔ IsName x ∧ x ∉ reservedWords := by
  constructor
  · rintro ⟨s, p, h, hx⟩
    obtain ⟨i, -, hi⟩ := (Source.mem_declarations_iff h x).mp hx
    have hword := Source.wellFormed_of_mem_words (List.mem_of_getElem? hi)
    exact ⟨hword.1, notMem_reservedWords_of_ofWord hword.2⟩
  · rintro ⟨hx, hr⟩
    obtain ⟨p, hp⟩ := Source.lone_parse hx hr
    refine ⟨_, p, hp, ?_⟩
    rw [(Source.declarations_eq hp).1, Source.lone_words hx hr]
    exact List.mem_cons_self ..

/-! ## Keywords of C -/

namespace C

/-- The keywords of C in its standard of 2018. -/
def keywords : List String :=
  ["auto", "break", "case", "char", "const", "continue", "default", "do", "double", "else",
    "enum", "extern", "float", "for", "goto", "if", "inline", "int", "long", "register",
    "restrict", "return", "short", "signed", "sizeof", "static", "struct", "switch", "typedef",
    "union", "unsigned", "void", "volatile", "while", "_Alignas", "_Alignof", "_Atomic", "_Bool",
    "_Complex", "_Generic", "_Imaginary", "_Noreturn", "_Static_assert", "_Thread_local"]

/-- No declared variable is called like a keyword or like a function that is called. -/
def Lawful (body : List Lexeme) : Prop :=
  ∀ x ∈ occurrences declaration? body, x ∉ keywords ∧ x ∉ occurrences callee? body

/-- Of the keywords of C, only those that the source language reserves as well and those
with an underscore are no names. -/
theorem isName_keyword_iff {x : String} (hx : x ∈ keywords) :
    IsName x ∧ x ∉ reservedWords ↔ x ∉ ["if", "else", "while"] ∧ x.toList.head? ≠ some '_' := by
  have hlist : ∀ y ∈ keywords, y ∉ ["if", "else", "while"] → y.toList.head? ≠ some '_' →
      (y.toList.head?.any Char.isAlpha && y.toList.tail.all Char.isAlphanum) = true ∧
        y ∉ reservedWords := by decide +kernel
  have hshared : ∀ y ∈ ["if", "else", "while"], y ∈ reservedWords := by decide
  constructor
  · rintro ⟨⟨c, cs, hc, halpha, -⟩, hr⟩
    refine ⟨fun hmem => hr (hshared x hmem), fun hhead => ?_⟩
    rw [hc, List.head?_cons, Option.some.injEq] at hhead
    subst hhead
    exact absurd halpha (by decide)
  · rintro ⟨hshare, hhead⟩
    obtain ⟨hname, hr⟩ := hlist x hx hshare hhead
    refine ⟨?_, hr⟩
    cases hc : x.toList with
    | nil => simp [hc] at hname
    | cons c cs => exact .of_all hc (by simpa [hc] using hname)

end C

/-! ## Accepted programs -/

theorem Program.lawful_body_iff (p : Program) :
    C.Lawful p.body ↔ ∀ x ∈ p.declarations, x ∉ C.keywords ∧
      (x = "printf" → p.prints = []) ∧ (x = "scanf" → p.reads = []) := by
  rw [C.Lawful, p.occurrences_declaration?]
  refine forall₂_congr fun x _ => and_congr_right fun _ => ?_
  rw [p.mem_occurrences_callee?]
  tauto

/-- Which names are captured. The C text of an accepted source declares lawful names
exactly when none of its `let`s is followed by a keyword of C, by `printf` with a `print`
in the program, or by `scanf` with a `read`. Every keyword of C can stand there but `if`,
`else`, `while` and the ones with an underscore. -/
theorem Source.lawful_iff_uncaptured {s : Source} {p : Program} (h : s.parse = .ok p)
    (f : C.Format) :
    (∃ text body, s.compile f = .ok text ∧
      C.read text = ("#include <stdio.h>",
        [.word "int", .word "main"] ++ parens [.word "void"] ++ braces body) ∧
      (C.Lawful body ↔ ∀ x ∈ letNames s.words, x ∉ C.keywords ∧
        (x = "printf" → p.prints = []) ∧ (x = "scanf" → p.reads = []))) ∧
    ∀ x ∈ C.keywords, (∃ t q, Source.parse t = .ok q ∧ x ∈ q.declarations) ↔
      x ∉ ["if", "else", "while"] ∧ x.toList.head? ≠ some '_' := by
  refine ⟨?_, fun x hx => ?_⟩
  · obtain ⟨text, htext, hread⟩ := Source.compile_body h f
    refine ⟨text, p.body, htext, hread, ?_⟩
    rw [p.lawful_body_iff, (Source.declarations_eq h).1]
  · rw [exists_declared_iff, C.isName_keyword_iff hx]

/-- A variable with the name of a function that is not called. -/
def Source.uncaptured : Source where
  name := "uncaptured"
  text := "let integer; let printf = 1; read(integer);"

theorem Source.uncaptured_lawful : ∃ p text body, uncaptured.parse = .ok p ∧
    p.declarations = ["integer", "printf"] ∧ uncaptured.compile .pretty = .ok text ∧
    C.read text = ("#include <stdio.h>",
      [.word "int", .word "main"] ++ parens [.word "void"] ++ braces body) ∧ C.Lawful body := by
  have htest : uncaptured.parse.toOption.any
      (fun p => p.declarations == ["integer", "printf"] && p.prints.isEmpty) = true := by
    decide +kernel
  obtain ⟨p, hp, hfacts⟩ := Source.exists_of_test htest
  obtain ⟨hnames, hprints⟩ : p.declarations = ["integer", "printf"] ∧ p.prints = [] := by
    simpa using hfacts
  obtain ⟨⟨text, body, htext, hread, hlawful⟩, -⟩ := Source.lawful_iff_uncaptured hp .pretty
  refine ⟨p, text, body, hp, hnames, htext, hread, hlawful.mpr fun x hx => ?_⟩
  rw [← (Source.declarations_eq hp).1, hnames] at hx
  have hfree : ∀ y ∈ ["integer", "printf"], y ∉ C.keywords ∧ y ≠ "scanf" := by decide
  obtain ⟨hkeyword, hscanf⟩ := hfree x hx
  exact ⟨hkeyword, fun _ => hprints, fun h => absurd h hscanf⟩

/-- Variables called `int` and `printf`. -/
def Source.captured : Source where
  name := "captured"
  text := "let int; let printf; print(\"a\");"

/-- The first declaration is `int int;`, and what is called is a variable. -/
theorem Source.captured_unlawful : ∃ p, captured.parse = .ok p ∧
    p.declarations = ["int", "printf"] ∧ "int" ∈ C.keywords ∧
    captured.compile .compact =
      .ok "#include <stdio.h>\nint main(void)\x7bint int;int printf;printf(\"a\");\x7d\n" ∧
    "printf" ∈ C.occurrences C.callee? p.body ∧ ¬ C.Lawful p.body := by
  have htest : captured.parse.toOption.any (fun p =>
      p.declarations == ["int", "printf"] && !p.prints.isEmpty && p.toC .compact ==
        "#include <stdio.h>\nint main(void)\x7bint int;int printf;printf(\"a\");\x7d\n") = true := by
    decide +kernel
  obtain ⟨p, hp, hfacts⟩ := Source.exists_of_test htest
  simp only [Bool.and_eq_true, beq_iff_eq, Bool.not_eq_true', List.isEmpty_eq_false_iff] at hfacts
  obtain ⟨⟨hnames, hprints⟩, htext⟩ := hfacts
  refine ⟨p, hp, hnames, by decide, by rw [Source.compile, hp, ← htext],
    (p.mem_occurrences_callee? "printf").mpr (Or.inl ⟨rfl, hprints⟩), fun hlawful => ?_⟩
  exact (p.lawful_body_iff.mp hlawful "int" (by simp [hnames])).1 (by decide)

end BareBones
