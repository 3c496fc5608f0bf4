import BareBones.Proofs.C.Occurrences

/-!
Where declarations go. The declared names of a program are those behind the `let`s of
its source, in their order and without repetition, and these are also the names that
its tree declares in preorder (`Source.declarations_eq`, `Statement.letNames_tokensAll`).
In C they all stand at the top; what remains of a declaration at its own place is the
assignment of its initial value (`Statement.lexemesAll_hoistAll`).
-/

namespace BareBones

open C (Lexeme)

/-! ## Names behind `let` -/

/-- The names that directly follow a `let`. -/
def letNames : List Token → List String
  | .keyword .let_ :: .id x :: w => x :: letNames w
  | _ :: w => letNames w
  | [] => []

theorem letNames_cons_of_ne {t : Token} (h : t ≠ .keyword .let_) (w : List Token) :
    letNames (t :: w) = letNames w := by
  rw [letNames]
  intro x v ht
  exact absurd ht h

theorem letNames_let_of_ne {t : Token} (h : ∀ x, t ≠ .id x) (w : List Token) :
    letNames (.keyword .let_ :: t :: w) = letNames (t :: w) := by
  rw [letNames]
  rintro x v - ⟨⟩
  exact h x rfl

theorem letNames_append_of_notMem {w : List Token} (h : Token.keyword .let_ ∉ w)
    (v : List Token) : letNames (w ++ v) = letNames v := by
  induction w with
  | nil => rfl
  | cons t w ih =>
    rw [List.mem_cons, not_or] at h
    rw [List.cons_append, letNames_cons_of_ne (Ne.symm h.1), ih h.2]

namespace Naming

/-- The `let` that a name may follow. -/
def pending (n : Naming) : List Token := if n.afterLet then [.keyword .let_] else []

theorem step_declared {n m : Naming} {t : Token} (h : n.step t = some m) (w : List Token) :
    (letNames (n.pending ++ t :: w)).reverse ++ n.declared =
      (letNames (m.pending ++ w)).reverse ++ m.declared := by
  unfold step at h
  split at h
  · rename_i x
    split at h
    · rename_i hl
      split at h
      · cases h
      · cases h
        simp [pending, hl, letNames]
    · rename_i hl
      split at h
      · cases h
        simp [pending, hl, letNames]
      · cases h
  · rename_i ht
    cases h
    -- a `let` before anything but a name declares nothing
    have hskip : letNames (n.pending ++ t :: w) = letNames (t :: w) := by
      unfold pending
      split
      · exact letNames_let_of_ne ht w
      · rfl
    rw [hskip]
    by_cases hlet : t = .keyword .let_
    · simp [hlet, pending]
    · simp [hlet, pending, letNames_cons_of_ne hlet]

/-- The declared names are added one by one, the latest first. -/
theorem run_declared {n m : Naming} {w : List Token} (h : n.run w = some m) :
    m.declared = (letNames (n.pending ++ w)).reverse ++ n.declared := by
  induction w generalizing n with
  | nil =>
    cases h
    unfold pending
    split <;> rfl
  | cons t w ih =>
    obtain ⟨k, hk, hw⟩ := Option.bind_eq_some_iff.mp h
    rw [step_declared hk, ih hw]

theorem step_nodup {n m : Naming} {t : Token} (hn : n.declared.Nodup) (h : n.step t = some m) :
    m.declared.Nodup := by
  unfold step at h
  split at h
  · rename_i x
    split at h
    · split at h
      · cases h
      · rename_i hx
        cases h
        exact List.nodup_cons.mpr ⟨hx, hn⟩
    · split at h
      · cases h
        exact hn
      · cases h
  · cases h
    exact hn

theorem run_nodup {n m : Naming} {w : List Token} (hn : n.declared.Nodup)
    (h : n.run w = some m) : m.declared.Nodup := by
  induction w generalizing n with
  | nil =>
    cases h
    exact hn
  | cons t w ih =>
    obtain ⟨k, hk, hw⟩ := Option.bind_eq_some_iff.mp h
    exact ih (step_nodup hn hk) hw

end Naming

/-- The declarations of a program are the names behind the `let`s of its source. -/
theorem Source.declarations_eq {s : Source} {p : Program} (h : s.parse = .ok p) :
    p.declarations = letNames s.words ∧ p.declarations.Nodup := by
  obtain ⟨ts, e, q, r, -, he, hts, hw, hq, hr, rfl⟩ := Source.parse_eq_ok h
  have hn : Naming.run {} s.words = some q.naming :=
    hw ▸ (Progress.feedAll_advances hts hq).named
  rcases Progress.step_advance hr with hadv | ⟨_, hfin⟩
  · exact absurd he hadv.ne_eof
  · have hscope : r.program.declarations = q.naming.declared.reverse := by
      rw [Progress.program, hfin.scope]
      rfl
    rw [hscope]
    refine ⟨by simp [Naming.run_declared hn, Naming.pending], ?_⟩
    exact List.pairwise_reverse.mpr ((Naming.run_nodup List.nodup_nil hn).imp Ne.symm)

/-! ## Names that a tree declares -/

mutual

theorem Factor.keyword_notMem_tokens (k : Keyword) (f : Factor) : .keyword k ∉ f.tokens := by
  cases f with
  | number n s => simp [Literal.token]
  | var x s => simp
  | group e s => simpa using e.keyword_notMem_tokens k

theorem Expr.keyword_notMem_tokens (k : Keyword) (e : Expr) : .keyword k ∉ e.tokens := by
  cases e with
  | factor f => exact f.keyword_notMem_tokens k
  | binary left op right =>
    simpa using ⟨left.keyword_notMem_tokens k, right.keyword_notMem_tokens k⟩

end

theorem Operand.token_ne_keyword (k : Keyword) (x : Operand) : x.token ≠ .keyword k := by
  cases x <;> simp [Operand.token, Literal.token]

theorem Condition.keyword_notMem_sign (k : Keyword) (n : Bool) : .keyword k ∉ sign n := by
  cases n <;> simp [sign]

theorem Condition.keyword_notMem_tokens (k : Keyword) (c : Condition) :
    .keyword k ∉ c.tokens := by
  induction c with
  | simple n x => simp [keyword_notMem_sign, (x.token_ne_keyword k).symm]
  | compare n x op y =>
    simp [keyword_notMem_sign, (x.token_ne_keyword k).symm, (y.token_ne_keyword k).symm]
  | group n c ih => simp [keyword_notMem_sign, ih]
  | groupThen n c op d ihc ihd => simp [keyword_notMem_sign, ihc, ihd]

theorem Bound.token_ne_keyword (k : Keyword) (b : Bound) : b.token ≠ .keyword k := by
  cases b <;> simp [Bound.token, Literal.token]

theorem PrintArg.token_ne_keyword (k : Keyword) (a : PrintArg) : a.token ≠ .keyword k := by
  cases a <;> simp [PrintArg.token]

theorem PrintArg.keyword_notMem_further (k : Keyword) (args : List (Located PrintArg)) :
    .keyword k ∉ PrintArg.furtherTokens args := by
  simp only [furtherTokens, List.mem_flatMap, not_exists, not_and]
  intro a _
  simp [(a.val.token_ne_keyword k).symm]

/-- A condition behind its keyword declares nothing. -/
theorem letNames_guard {k : Keyword} (hk : k ≠ .let_) (c : Condition) (v : List Token) :
    letNames (c.guard k ++ v) = letNames v := by
  refine letNames_append_of_notMem ?_ v
  simp [Condition.guard, Ne.symm hk, c.keyword_notMem_tokens .let_]

theorem letNames_braced {w : List Token} {xs : List String}
    (h : ∀ v, letNames (w ++ v) = xs ++ letNames v) (v : List Token) :
    letNames (braced w ++ v) = xs ++ letNames v := by
  rw [braced, List.cons_append, letNames_cons_of_ne (by simp), List.append_assoc, h,
    List.cons_append, letNames_cons_of_ne (by simp), List.nil_append]

mutual

theorem Statement.letNames_tokens (s : Statement) (v : List Token) :
    letNames (s.tokens ++ v) = s.preorder.filterMap declaredName? ++ letNames v := by
  cases s with
  | declare x value =>
    cases value with
    | none => simp [Statement.tokens, Statement.preorder, declaredName?, letNames]
    | some e =>
      have he := letNames_append_of_notMem (e.keyword_notMem_tokens .let_) (.semicolon :: v)
      simpa [Statement.tokens, Statement.preorder, declaredName?, letNames,
        letNames_cons_of_ne] using he
  | assign x e =>
    have he := letNames_append_of_notMem (e.keyword_notMem_tokens .let_) (.semicolon :: v)
    simpa [Statement.tokens, Statement.preorder, declaredName?, List.filterMap_cons,
      letNames_cons_of_ne] using he
  | ifThen c body =>
    have hb := letNames_braced (Statement.letNames_tokensAll body) v
    simpa [Statement.tokens, Statement.preorder, declaredName?, List.filterMap_cons,
      letNames_guard] using hb
  | ifElse c body otherwise =>
    have ho := letNames_braced (Statement.letNames_tokensAll otherwise) v
    have hb := letNames_braced (Statement.letNames_tokensAll body)
      (.keyword .else_ :: (braced (Statement.tokensAll otherwise) ++ v))
    rw [letNames_cons_of_ne (by simp), ho] at hb
    simpa [Statement.tokens, Statement.preorder, declaredName?, List.filterMap_cons,
      letNames_guard] using hb
  | whileDo c body =>
    have hb := letNames_braced (Statement.letNames_tokensAll body) v
    simpa [Statement.tokens, Statement.preorder, declaredName?, List.filterMap_cons,
      letNames_guard] using hb
  | dotimes b body =>
    have hb := letNames_braced (Statement.letNames_tokensAll body) v
    have hheader := letNames_append_of_notMem
      (w := [.keyword .dotimes, .openParen, b.val.token, .closeParen])
      (by simp [(b.val.token_ne_keyword .let_).symm]) (braced (Statement.tokensAll body) ++ v)
    rw [Statement.tokens, List.append_assoc, hheader, hb]
    rfl
  | print first more =>
    refine letNames_append_of_notMem ?_ v
    simp [Statement.tokens, (first.val.token_ne_keyword .let_).symm,
      PrintArg.keyword_notMem_further]
  | read x =>
    refine letNames_append_of_notMem ?_ v
    simp [Statement.tokens]

/-- The names behind the `let`s of a written tree are the ones it declares, in preorder. -/
theorem Statement.letNames_tokensAll (ss : List Statement) (v : List Token) :
    letNames (Statement.tokensAll ss ++ v) =
      (Statement.preorderAll ss).filterMap declaredName? ++ letNames v := by
  cases ss with
  | nil => rfl
  | cons s rest =>
    rw [Statement.tokensAll, List.append_assoc, s.letNames_tokens,
      Statement.letNames_tokensAll rest, Statement.preorderAll, List.filterMap_append,
      List.append_assoc]

end

theorem Token.eq_of_reading {t u : Token} (h : t.reading = u.reading) (ht : ∀ d, t ≠ .number d) :
    t = u := by
  cases t with
  | number d => exact absurd rfl (ht d)
  | _ => cases u <;> simp_all [Token.reading]

/-- Names behind `let` are the same in words that say the same. -/
theorem letNames_of_reading {w v : List Token} (h : w.map Token.reading = v.map Token.reading) :
    letNames w = letNames v := by
  fun_induction letNames w generalizing v with
  | case1 x w ih =>
    obtain ⟨t, v₁, rfl, ht, hv₁⟩ := List.map_eq_cons_iff.mp h.symm
    obtain ⟨u, v₂, rfl, hu, hv₂⟩ := List.map_eq_cons_iff.mp hv₁
    obtain rfl := Token.eq_of_reading ht.symm (by simp)
    obtain rfl := Token.eq_of_reading hu.symm (by simp)
    rw [letNames, ih hv₂.symm]
  | case2 t w hne ih =>
    obtain ⟨u, v, rfl, hu, hv⟩ := List.map_eq_cons_iff.mp h.symm
    rw [ih hv.symm]
    by_cases hlet : u = .keyword .let_
    · subst hlet
      obtain rfl := Token.eq_of_reading hu (by simp)
      cases v with
      | nil => rfl
      | cons u v =>
        refine (letNames_let_of_ne ?_ v).symm
        rintro x rfl
        obtain ⟨t, w, rfl, ht, -⟩ := List.map_eq_cons_iff.mp hv.symm
        obtain rfl := Token.eq_of_reading ht.symm (by simp)
        exact hne x w rfl rfl
    · rw [letNames_cons_of_ne hlet]
  | case3 =>
    obtain rfl := List.map_eq_nil_iff.mp h.symm
    rfl

theorem Source.declarations_eq_preorder {s : Source} {p : Program} (h : s.parse = .ok p) :
    p.declarations = (Statement.preorderAll p.statements).filterMap Statement.declaredName? := by
  have htree := Statement.letNames_tokensAll p.statements []
  rw [List.append_nil, letNames_of_reading (Source.parse_spelled h).1] at htree
  rw [(Source.declarations_eq h).1, htree]
  exact List.append_nil _

/-! ## What remains of declarations -/

mutual

/-- A statement when its variables are declared elsewhere: a declaration leaves the
assignment of its initial value, if it has one. -/
def Statement.hoist : Statement → List Statement
  | .declare _ none => []
  | .declare x (some e) => [.assign x e]
  | .assign x e => [.assign x e]
  | .ifThen c body => [.ifThen c (Statement.hoistAll body)]
  | .ifElse c body otherwise =>
    [.ifElse c (Statement.hoistAll body) (Statement.hoistAll otherwise)]
  | .whileDo c body => [.whileDo c (Statement.hoistAll body)]
  | .dotimes b body => [.dotimes b (Statement.hoistAll body)]
  | .print first more => [.print first more]
  | .read x => [.read x]

def Statement.hoistAll : List Statement → List Statement
  | [] => []
  | s :: rest => s.hoist ++ Statement.hoistAll rest

end

theorem Statement.lexemesAll_append (k : Nat) (ss rest : List Statement) :
    Statement.lexemesAll k (ss ++ rest) =
      Statement.lexemesAll k ss ++ Statement.lexemesAll (k + Statement.loopsAll ss) rest := by
  induction ss generalizing k with
  | nil => simp [Statement.lexemesAll, Statement.loopsAll]
  | cons s ss ih =>
    simp only [List.cons_append, Statement.lexemesAll, Statement.loopsAll, ih, List.append_assoc,
      Nat.add_assoc]

theorem Statement.lexemesAll_single (k : Nat) (s : Statement) :
    Statement.lexemesAll k [s] = s.lexemes k := by
  simp [Statement.lexemesAll]

theorem Statement.loopsAll_single (s : Statement) : Statement.loopsAll [s] = s.loops := by
  simp [Statement.loopsAll]

mutual

theorem Statement.loopsAll_hoist (s : Statement) : Statement.loopsAll s.hoist = s.loops := by
  cases s with
  | declare x value => cases value <;> rfl
  | ifThen c body | whileDo c body =>
    have hbody := Statement.loopsAll_hoistAll body
    rw [Statement.hoist, Statement.loopsAll_single, Statement.loops, Statement.loops, hbody]
  | ifElse c body otherwise =>
    have hbody := Statement.loopsAll_hoistAll body
    have hother := Statement.loopsAll_hoistAll otherwise
    rw [Statement.hoist, Statement.loopsAll_single, Statement.loops, Statement.loops, hbody,
      hother]
  | dotimes b body =>
    have hbody := Statement.loopsAll_hoistAll body
    rw [Statement.hoist, Statement.loopsAll_single, Statement.loops, Statement.loops, hbody]
  | assign x e | print first more | read x => rfl

theorem Statement.loopsAll_hoistAll (ss : List Statement) :
    Statement.loopsAll (Statement.hoistAll ss) = Statement.loopsAll ss := by
  cases ss with
  | nil => rfl
  | cons s rest =>
    rw [Statement.hoistAll, Statement.loopsAll_append, s.loopsAll_hoist,
      Statement.loopsAll_hoistAll rest, Statement.loopsAll]

end

mutual

theorem Statement.lexemesAll_hoist (s : Statement) (k : Nat) :
    Statement.lexemesAll k s.hoist = s.lexemes k := by
  cases s with
  | declare x value =>
    cases value with
    | none => rfl
    | some e => exact Statement.lexemesAll_single k _
  | ifThen c body | whileDo c body | dotimes b body =>
    have hbody := Statement.lexemesAll_hoistAll body
    rw [Statement.hoist, Statement.lexemesAll_single, Statement.lexemes, Statement.lexemes, hbody]
  | ifElse c body otherwise =>
    have hbody := Statement.lexemesAll_hoistAll body
    have hother := Statement.lexemesAll_hoistAll otherwise
    rw [Statement.hoist, Statement.lexemesAll_single, Statement.lexemes, Statement.lexemes, hbody,
      hother, Statement.loopsAll_hoistAll]
  | assign x e | print first more | read x => exact Statement.lexemesAll_single k _

/-- Without their declarations, statements have the same C tokens. -/
theorem Statement.lexemesAll_hoistAll (ss : List Statement) (k : Nat) :
    Statement.lexemesAll k (Statement.hoistAll ss) = Statement.lexemesAll k ss := by
  cases ss with
  | nil => rfl
  | cons s rest =>
    rw [Statement.hoistAll, Statement.lexemesAll_append, s.lexemesAll_hoist, s.loopsAll_hoist,
      Statement.lexemesAll_hoistAll rest, Statement.lexemesAll]

end

/-! ## Declarations in the text -/

namespace C

/-- The text up to the brace of `main`. -/
def opening : Format → String
  | .pretty => "#include <stdio.h>\n\nint main(void) \x7b\n"
  | .compact => "#include <stdio.h>\nint main(void)\x7b"

/-- The text of one declaration. -/
def hoisted (f : Format) (x : String) : String :=
  match f with
  | .pretty => "    int " ++ x ++ ";\n"
  | .compact => "int " ++ x ++ ";"

theorem prettyLine_declaration (x : String) :
    prettyLine 0 (declaration x) = hoisted .pretty x := by
  rw [← String.toList_inj]
  simp [prettyLine, declaration, hoisted, indentation]

/-- Behind the declarations come the lines and the last brace. -/
theorem render_eq (f : Format) (xs : List String) {lines : List Line} {ls : List Lexeme}
    (h : Settled (lines.flatMap (lineChars f)) ls) :
    ∃ rest, render f xs lines = opening f ++ String.join (xs.map (hoisted f)) ++ rest ∧
      lex rest.toList = ls ++ [.mark "\x7d"] := by
  have hend : Settled ['\x7d', '\n'] [.mark "\x7d"] :=
    Settled.closeCurly.append (Settled.blanks (by decide))
  cases f with
  | pretty =>
    let gap := if xs ≠ [] ∧ nonempty .pretty lines ≠ [] then "\n" else ""
    have hgap : Settled gap.toList [] := by
      unfold gap
      split <;> exact .blanks (by decide)
    have hrest := hgap.append (h.append hend) []
    refine ⟨gap ++ (String.join ((nonempty .pretty lines).map fun l => prettyLine l.1 l.2) ++
      "\x7d\n"), ?_, ?_⟩
    · simp only [render_pretty, prettyLine_declaration, opening, String.append_assoc]
      rfl
    · simpa [List.flatMap_map, flatMap_nonempty_pretty, lex_nil] using hrest
  | compact =>
    have hrest := h.append hend []
    refine ⟨String.join ((nonempty .compact lines).map (·.2)) ++ "\x7d\n", ?_, ?_⟩
    · simp only [render_compact, opening, String.append_assoc]
      rfl
    · simpa [List.flatMap_map, flatMap_nonempty_compact, lex_nil] using hrest

end C

/-- Declarations are hoisted. The declared names, each once, are the ones that the tree
declares in preorder, which are the ones behind the `let`s of the source. In both
formats the C text is the opening of `main`, one `int` declaration for each of them in
this order, and then the statements, in which no variable is declared and every initial
value is assigned where its declaration stood. -/
theorem Source.declarations_hoisted {s : Source} {p : Program} (h : s.parse = .ok p) :
    p.declarations.Nodup ∧
    p.declarations = (Statement.preorderAll p.statements).filterMap Statement.declaredName? ∧
    p.declarations = letNames s.words ∧
    ∀ f, ∃ rest,
      s.compile f = .ok (C.opening f ++ String.join (p.declarations.map (C.hoisted f)) ++ rest) ∧
      C.lex rest.toList =
        Statement.lexemesAll 0 (Statement.hoistAll p.statements) ++ [.mark "\x7d"] ∧
      C.occurrences C.declaration? (C.lex rest.toList) = [] := by
  refine ⟨(Source.declarations_eq h).2, Source.declarations_eq_preorder h,
    (Source.declarations_eq h).1, fun f => ?_⟩
  obtain ⟨rest, htext, hrest⟩ := C.render_eq f p.declarations
    (Program.settled_lines (Source.parse_legible h) f)
  have hnone := Statement.finds_declaration? 0 p.statements
  refine ⟨rest, ?_, ?_, ?_⟩
  · rw [Source.compile, h, ← htext]
    rfl
  · rw [hrest, Statement.lexemesAll_hoistAll]
  · rw [hrest]
    exact (hnone.mark C.selective_declaration? "\x7d").occurrences_eq

/-- Declarations at the top, in both branches, in a loop and behind other statements,
with and without a value. -/
def Source.scatteredLets : Source where
  name := "scattered"
  text := "let b = 1;\nif (b) \x7b let a; a = b; \x7d else \x7b let d = 2; \x7d\n" ++
    "dotimes(2) \x7b let\nc = b; \x7d print(\"let e\", d);"

theorem Source.scatteredLets_hoisted : ∃ p, scatteredLets.parse = .ok p ∧
    p.declarations = ["b", "a", "d", "c"] ∧ letNames scatteredLets.words = ["b", "a", "d", "c"] ∧
    ∃ rest, scatteredLets.compile .compact =
      .ok ("#include <stdio.h>\nint main(void)\x7bint b;int a;int d;int c;" ++ rest) := by
  have htest : scatteredLets.parse.toOption.any
      (fun p => p.declarations == ["b", "a", "d", "c"]) = true := by decide +kernel
  obtain ⟨p, hp, hdeclared⟩ := Source.exists_of_test htest
  obtain ⟨-, -, hlet, hcompile⟩ := Source.declarations_hoisted hp
  have hnames : p.declarations = ["b", "a", "d", "c"] := by simpa using hdeclared
  obtain ⟨rest, htext, -⟩ := hcompile .compact
  refine ⟨p, hp, hnames, by rw [← hlet, hnames], rest, ?_⟩
  rw [htext, hnames]
  rfl

end BareBones
