import BareBones.Proofs.Counters
import BareBones.Proofs.Hoisting

/-!
Names in generated C. The variables of loops are named by number, so that no two
loops share one (`loopNames_nodup`). Every word in the body of `main` is one that the
translation writes itself, a variable declared at the top, or stands in the header of
the loop that declares it (`Statement.resolvedAll`).
-/

namespace BareBones

open C (Lexeme)
open C.Lexeme (parens braces bang forHeader)

/-! ## Variables of loops -/

/-- The variables of loop number `k`: its counter and, for a bound that may change, its
limit. -/
def Bound.loopNames (k : Nat) : Bound → List String
  | number _ => ["_dotimes" ++ toString k]
  | var _ => ["_dotimes" ++ toString k, "_dotimes" ++ toString k ++ "_end"]

/-- The variables of all loops, numbered in preorder. -/
def Program.loopNames (p : Program) : List String :=
  p.bounds.zipIdx.flatMap fun b => b.1.loopNames b.2

theorem Bound.mem_loopNames {b : Bound} {k : Nat} {x : String} (h : x ∈ b.loopNames k) :
    x = counterName k ∨ x = limitName k := by
  cases b with
  | number n => exact Or.inl (List.mem_singleton.mp h)
  | var y =>
    rw [loopNames, List.mem_pair] at h
    exact h

theorem toString_nat_injective {j k : Nat} (h : toString j = toString k) : j = k := by
  have hdigits := congrArg (fun x => Nat.ofDigitChars 10 x.toList 0) h
  simpa [Nat.toString_eq_ofList_toDigits] using hdigits

theorem counterName_injective {j k : Nat} (h : counterName j = counterName k) : j = k := by
  have hlist := congrArg String.toList h
  simp only [counterName, String.toList_append, List.append_cancel_left_eq,
    String.toList_inj] at hlist
  exact toString_nat_injective hlist

theorem limitName_injective {j k : Nat} (h : limitName j = limitName k) : j = k := by
  have hlist := congrArg String.toList h
  simp only [limitName, String.toList_append, List.append_cancel_right_eq,
    String.toList_inj] at hlist
  exact counterName_injective hlist

/-- A counter ends in a digit. -/
theorem counterName_ne_limitName_of_any (j k : Nat) : counterName j ≠ limitName k := by
  intro h
  have hlist := congrArg String.toList h
  simp only [limitName, counterName, String.toList_append, List.append_assoc,
    List.append_cancel_left_eq] at hlist
  have hunderscore : '_' ∈ (toString j).toList := by
    rw [hlist]
    exact List.mem_append_right _ (by decide)
  exact absurd ((toString_digits j).2 '_' hunderscore) (by decide)

theorem loopNames_disjoint {b c : Bound} {j k : Nat} (hne : j ≠ k) {x : String}
    (hb : x ∈ b.loopNames j) : x ∉ c.loopNames k := by
  intro hc
  rcases Bound.mem_loopNames hb with rfl | rfl <;> rcases Bound.mem_loopNames hc with h | h
  · exact hne (counterName_injective h)
  · exact counterName_ne_limitName_of_any j k h
  · exact counterName_ne_limitName_of_any k j h.symm
  · exact hne (limitName_injective h)

theorem Bound.loopNames_nodup (b : Bound) (k : Nat) : (b.loopNames k).Nodup := by
  cases b with
  | number n => exact List.pairwise_singleton _ _
  | var y => exact List.pairwise_pair.mpr (counterName_ne_limitName k)

theorem loopNames_nodup (bs : List Bound) (k : Nat) :
    ((bs.zipIdx k).flatMap fun b => b.1.loopNames b.2).Nodup := by
  induction bs generalizing k with
  | nil => exact List.nodup_nil
  | cons b bs ih =>
    rw [List.zipIdx_cons, List.flatMap_cons, List.nodup_append]
    refine ⟨b.loopNames_nodup k, ih (k + 1), fun x hx y hy => ?_⟩
    obtain ⟨⟨c, j⟩, hcj, hy⟩ := List.mem_flatMap.mp hy
    have hj : k + 1 ≤ j := List.le_snd_of_mem_zipIdx hcj
    rintro rfl
    exact loopNames_disjoint (by omega) hx hy

/-! ## Words of the body -/

namespace C

/-- The words that the translation writes whatever the program is. -/
def fixedWords : List String := ["int", "if", "else", "while", "for", "printf", "scanf"]

/-- The word `x` between `pre` and `post` is a fixed one, one of `names`, or a variable
of one of `loops` and stands in the header of that loop. -/
inductive Resolves (names : List String) (loops : List (Bound × Nat)) (pre : List Lexeme)
    (x : String) (post : List Lexeme) : Prop where
  | fixed (h : x ∈ fixedWords)
  | declared (h : x ∈ names)
  | loop {b : Bound} {k : Nat} {before behind : List Lexeme} (hb : (b, k) ∈ loops)
      (hx : x ∈ b.loopNames k) (hheader : b.lexemes k = before ++ .word x :: behind)
      (hpre : before <:+ pre) (hpost : behind <+: post)

def Resolved (names : List String) (loops : List (Bound × Nat)) (ls : List Lexeme) : Prop :=
  ∀ pre x post, ls = pre ++ .word x :: post → Resolves names loops pre x post

section

variable {names : List String} {loops loops' : List (Bound × Nat)} {ls ms : List Lexeme}

theorem Resolves.extend {pre post : List Lexeme} {x : String}
    (h : Resolves names loops pre x post) (hl : loops ⊆ loops') (before behind : List Lexeme) :
    Resolves names loops' (before ++ pre) x (post ++ behind) := by
  cases h with
  | fixed h => exact .fixed h
  | declared h => exact .declared h
  | loop hb hx hheader hpre hpost =>
    exact .loop (hl hb) hx hheader (hpre.trans (List.suffix_append _ _))
      (hpost.trans (List.prefix_append _ _))

namespace Resolved

theorem of_words (h : ∀ x, .word x ∈ ls → x ∈ fixedWords ∨ x ∈ names) :
    Resolved names loops ls := by
  rintro pre x post rfl
  rcases h x (by simp) with hx | hx
  · exact .fixed hx
  · exact .declared hx

theorem append (hl : Resolved names loops ls) (hm : Resolved names loops' ms) :
    Resolved names (loops ++ loops') (ls ++ ms) := by
  intro pre x post heq
  -- the word stands in `ms`, or in `ls` unless `mid` is empty
  rcases List.append_eq_append_iff.mp heq with ⟨mid, rfl, hms⟩ | ⟨mid, hls, hpost⟩
  · simpa using (hm mid x post hms).extend (List.subset_append_right _ _) ls []
  · cases mid with
    | nil =>
      have hms : ms = [] ++ .word x :: post := by simpa using hpost.symm
      obtain rfl : ls = pre := by simpa using hls
      simpa using (hm [] x post hms).extend (List.subset_append_right _ _) ls []
    | cons l mid =>
      rw [List.cons_append, List.cons.injEq] at hpost
      obtain ⟨rfl, rfl⟩ := hpost
      exact (hl pre x mid hls).extend (List.subset_append_left _ _) [] ms

theorem word {x : String} (hx : x ∈ fixedWords) (h : Resolved names loops ls) :
    Resolved names loops (.word x :: ls) := by
  have hword : Resolved names [] [.word x] := of_words (by simp [hx])
  exact hword.append h

theorem braces (h : Resolved names loops ls) : Resolved names loops (Lexeme.braces ls) := by
  have hmark (m : String) : Resolved names [] [.mark m] := of_words (by simp)
  have hall := (hmark "\x7b").append (h.append (hmark "\x7d"))
  rwa [List.append_nil] at hall

end Resolved

end

end C

open C (Resolved Resolves fixedWords)

/-! ## Words of trees -/

mutual

theorem Factor.id_mem_tokens {x : String} {f : Factor} (h : .word x ∈ f.lexemes) :
    .id x ∈ f.tokens := by
  cases f with
  | number n s => simp [Factor.lexemes] at h
  | var y s => simpa [Factor.lexemes] using h
  | group e s =>
    have he : .word x ∈ e.lexemes := by simpa [Factor.lexemes, parens] using h
    simpa using e.id_mem_tokens he

theorem Expr.id_mem_tokens {x : String} {e : Expr} (h : .word x ∈ e.lexemes) :
    .id x ∈ e.tokens := by
  cases e with
  | factor f => exact f.id_mem_tokens h
  | binary left op right =>
    obtain ⟨m, hm, -⟩ := op.mark_eq
    have hsides : .word x ∈ left.lexemes ∨ .word x ∈ right.lexemes := by
      simpa [Expr.lexemes, hm] using h
    rcases hsides with hx | hx
    · simp [left.id_mem_tokens hx]
    · simp [right.id_mem_tokens hx]

end

theorem Operand.token_eq_id {x : String} {o : Operand} (h : .word x = o.lexeme) :
    .id x = o.token := by
  cases o with
  | number n => cases h
  | var y =>
    cases h
    rfl

theorem word_notMem_bang (x : String) (n : Bool) : .word x ∉ bang n := by
  cases n <;> simp [bang]

theorem Condition.id_mem_tokens {x : String} {c : Condition} (h : .word x ∈ c.lexemes) :
    .id x ∈ c.tokens := by
  induction c with
  | simple n o =>
    have ho : .word x = o.lexeme := by simpa [lexemes, word_notMem_bang] using h
    simp [Operand.token_eq_id ho]
  | compare n o op o' =>
    obtain ⟨m, hm, -⟩ := op.mark_eq
    have hsides : .word x = o.lexeme ∨ .word x = o'.lexeme := by
      simpa [lexemes, word_notMem_bang, hm] using h
    rcases hsides with ho | ho <;> simp [Operand.token_eq_id ho]
  | group n c ih =>
    have hc : .word x ∈ c.lexemes := by simpa [lexemes, word_notMem_bang, parens] using h
    simp [ih hc]
  | groupThen n c op d ihc ihd =>
    obtain ⟨m, hm, -⟩ := op.mark_eq
    have hsides : .word x ∈ c.lexemes ∨ .word x ∈ d.lexemes := by
      simpa [lexemes, word_notMem_bang, parens, hm] using h
    rcases hsides with hx | hx
    · simp [ihc hx]
    · simp [ihd hx]

/-! ## Words of statements -/

section

variable {names : List String}

theorem word_mem_forHeader {x counter : String} {copy : List Lexeme} {limit : Lexeme}
    (h : .word x ∈ forHeader counter copy limit) :
    x ∈ fixedWords ∨ x = counter ∨ .word x ∈ copy ∨ .word x = limit := by
  simp only [forHeader, parens, List.mem_cons, List.mem_append, Lexeme.word.injEq, reduceCtorEq,
    List.not_mem_nil] at h
  have hfor : "for" ∈ fixedWords := by decide
  have hint : "int" ∈ fixedWords := by decide
  grind

/-- A header has the variables of its loop, and the variable that bounds it. -/
theorem Bound.resolved (b : Bound) (k : Nat) (h : ∀ x, b = .var x → x ∈ names) :
    Resolved names [(b, k)] (b.lexemes k) := by
  intro pre x post hheader
  have hx : x ∈ fixedWords ∨ x ∈ names ∨ x ∈ b.loopNames k := by
    have hmem : .word x ∈ b.lexemes k := by simp [hheader]
    cases b with
    | number n =>
      rcases word_mem_forHeader hmem with hx | rfl | hx | hx
      · exact Or.inl hx
      · exact Or.inr (Or.inr (List.mem_singleton_self _))
      · cases hx
      · cases hx
    | var y =>
      rcases word_mem_forHeader hmem with hx | rfl | hx | hx
      · exact Or.inl hx
      · exact Or.inr (Or.inr (List.mem_cons_self ..))
      · simp only [List.mem_cons, reduceCtorEq, Lexeme.word.injEq, List.not_mem_nil, or_false,
          false_or] at hx
        rcases hx with rfl | rfl
        · exact Or.inr (Or.inr (by simp [loopNames]))
        · exact Or.inr (Or.inl (h x rfl))
      · cases hx
        exact Or.inr (Or.inr (by simp [loopNames]))
  rcases hx with hx | hx | hx
  · exact .fixed hx
  · exact .declared hx
  · exact .loop (List.mem_singleton_self _) hx hheader List.suffix_rfl List.prefix_rfl

theorem C.Resolved.assign {x : String} {e : Expr} (hx : x ∈ names) (he : NamesIn names e.tokens) :
    Resolved names [] (.word x :: .mark "=" :: (e.lexemes ++ [.mark ";"])) := by
  refine .of_words fun y hy => Or.inr ?_
  have hwords : y = x ∨ .word y ∈ e.lexemes := by simpa using hy
  rcases hwords with rfl | hy
  · exact hx
  · exact he y (Expr.id_mem_tokens hy)

theorem C.Resolved.guarded {w : String} (hw : w ∈ fixedWords) {c : Condition}
    (hc : NamesIn names c.tokens) {loops : List (Bound × Nat)} {ls : List Lexeme}
    (h : Resolved names loops ls) :
    Resolved names loops (.word w :: (parens c.lexemes ++ Lexeme.braces ls)) := by
  have hparens : Resolved names [] (parens c.lexemes) := by
    refine .of_words fun y hy => Or.inr (hc y (Condition.id_mem_tokens ?_))
    simpa [parens] using hy
  exact .word hw (hparens.append h.braces)

theorem PrintArg.resolved {args : List PrintArg} (h : ∀ x, .var x ∈ args → x ∈ names) :
    Resolved names [] (PrintArg.lexemes args ++ [.mark ";"]) := by
  refine .of_words fun y hy => ?_
  have hwords : y = "printf" ∨ ∃ a ∈ args, .word y ∈ a.valueLexemes := by
    simpa [lexemes, parens] using hy
  rcases hwords with rfl | ⟨a, ha, hy⟩
  · exact Or.inl (by decide)
  · cases a with
    | text raw => cases hy
    | var x =>
      obtain rfl : y = x := by simpa [valueLexemes] using hy
      exact Or.inr (h y ha)

mutual

theorem Statement.resolved (s : Statement) (k : Nat) (h : NamesIn names s.tokens) :
    Resolved names ((s.preorder.filterMap Statement.bound?).zipIdx k) (s.lexemes k) := by
  cases s with
  | declare x value =>
    cases value with
    | none => exact .of_words (by simp [Statement.lexemes])
    | some e =>
      exact .assign (h x.val (by simp [Statement.tokens])) fun y hy =>
        h y (by simp [Statement.tokens, hy])
  | assign x e =>
    exact .assign (h x.val (by simp [Statement.tokens])) fun y hy =>
      h y (by simp [Statement.tokens, hy])
  | ifThen c body =>
    exact .guarded (by decide) (fun y hy => h y (by simp [Statement.tokens, Condition.guard, hy]))
      (Statement.resolvedAll body k h.ifThen)
  | ifElse c body otherwise =>
    have hbody := Statement.resolvedAll body k h.ifElse.1
    have hother := Statement.resolvedAll otherwise (k + Statement.loopsAll body) h.ifElse.2
    have hc : NamesIn names c.tokens := fun y hy =>
      h y (by simp [Statement.tokens, Condition.guard, hy])
    have hall := (C.Resolved.guarded (w := "if") (by decide) hc hbody).append
      (.word (x := "else") (by decide) hother.braces)
    rw [← Statement.length_boundsAll, ← List.zipIdx_append, ← List.filterMap_append] at hall
    simpa [Statement.lexemes, Statement.preorder, List.filterMap_cons, Statement.bound?,
      Statement.length_boundsAll] using hall
  | whileDo c body =>
    exact .guarded (by decide) (fun y hy => h y (by simp [Statement.tokens, Condition.guard, hy]))
      (Statement.resolvedAll body k h.whileDo)
  | dotimes b body =>
    exact (b.val.resolved k h.dotimes.1).append
      (Statement.resolvedAll body (k + 1) h.dotimes.2).braces
  | print first more =>
    refine PrintArg.resolved fun x hx => h x ?_
    obtain ⟨a, ha, hax⟩ := List.mem_map.mp hx
    rcases List.mem_cons.mp ha with rfl | ha
    · simp [Statement.tokens, hax, PrintArg.token]
    · have hmem : .id x ∈ PrintArg.furtherTokens more :=
        List.mem_flatMap.mpr ⟨a, ha, by simp [hax, PrintArg.token]⟩
      simp [Statement.tokens, hmem]
  | read x =>
    refine .of_words fun y hy => ?_
    have hwords : y = "scanf" ∨ y = x.val := by simpa [Statement.lexemes, parens] using hy
    rcases hwords with rfl | rfl
    · exact Or.inl (by decide)
    · exact Or.inr (h x.val (by simp [Statement.tokens]))

/-- Every word of the statements is resolved. -/
theorem Statement.resolvedAll (ss : List Statement) (k : Nat)
    (h : NamesIn names (Statement.tokensAll ss)) :
    Resolved names (((Statement.preorderAll ss).filterMap Statement.bound?).zipIdx k)
      (Statement.lexemesAll k ss) := by
  cases ss with
  | nil => exact .of_words (by simp [Statement.lexemesAll])
  | cons s rest =>
    have hs := s.resolved k h.cons.1
    have hrest := Statement.resolvedAll rest (k + s.loops) h.cons.2
    rw [Statement.preorderAll, List.filterMap_append, List.zipIdx_append, s.length_bounds]
    exact hs.append hrest

end

end

/-! ## Accepted programs -/

/-- The name in `name = `. -/
def C.initialized? : List Lexeme → Option String
  | .word x :: .mark m :: _ => if m = "=" then some x else none
  | _ => none

theorem Bound.occurrences_initialized? (b : Bound) (k : Nat) :
    C.occurrences C.initialized? (b.lexemes k) = b.loopNames k := by
  cases b <;> rfl

theorem Source.declared_loopNames_nodup {s : Source} {p : Program} (h : s.parse = .ok p) :
    (p.declarations ++ p.loopNames).Nodup := by
  rw [List.nodup_append]
  refine ⟨(Source.declarations_eq h).2, loopNames_nodup p.bounds 0, fun x hx y hy => ?_⟩
  rintro rfl
  obtain ⟨⟨b, k⟩, -, hy⟩ := List.mem_flatMap.mp hy
  rcases Bound.mem_loopNames hy with rfl | rfl
  · exact (Source.unclaimed h k).1 hx
  · exact (Source.unclaimed h k).2 hx

theorem Program.resolved_body {s : Source} {p : Program} (h : s.parse = .ok p) :
    Resolved p.declarations p.bounds.zipIdx p.body := by
  have hdeclared : Resolved p.declarations []
      (p.declarations.flatMap fun x => [.word "int", .word x, .mark ";"]) := by
    refine .of_words fun y hy => ?_
    obtain ⟨x, hx, hy⟩ := List.mem_flatMap.mp hy
    have hwords : y = "int" ∨ y = x := by simpa using hy
    rcases hwords with rfl | rfl
    · exact Or.inl (by decide)
    · exact Or.inr hx
  exact hdeclared.append (Statement.resolvedAll p.statements 0 fun x hx =>
    Source.mem_declarations_of_mem_tokens h hx)

/-- Names in the C text of an accepted program resolve and do not clash. Loop number `k`
in preorder declares the counter `_dotimesk` and, if a variable bounds it, the limit
`_dotimesk_end`; these and the declared variables are pairwise different. Each variable
is declared once at the top of `main`, and every other word of the body is a fixed one,
a declared variable, or a variable of the very header in which it stands. -/
theorem Source.names_resolve {s : Source} {p : Program} (h : s.parse = .ok p) (f : C.Format) :
    (p.declarations ++ p.loopNames).Nodup ∧
    ∃ text body, s.compile f = .ok text ∧
      C.read text = ("#include <stdio.h>",
        [.word "int", .word "main"] ++ parens [.word "void"] ++ braces body) ∧
      (∃ rest, body = (p.declarations.flatMap fun x => [.word "int", .word x, .mark ";"]) ++ rest ∧
        C.occurrences C.declaration? rest = []) ∧
      C.occurrences C.loopHeader? body = p.bounds.zipIdx.map (fun b => b.1.lexemes b.2) ∧
      (C.occurrences C.loopHeader? body).flatMap (C.occurrences C.initialized?) = p.loopNames ∧
      ∀ pre x post, body = pre ++ .word x :: post →
        Resolves p.declarations p.bounds.zipIdx pre x post := by
  obtain ⟨text, htext, hread⟩ := Source.compile_body h f
  refine ⟨Source.declared_loopNames_nodup h, text, p.body, htext, hread,
    ⟨_, rfl, (Statement.finds_declaration? 0 _).occurrences_eq⟩, p.occurrences_loopHeader?, ?_,
    Program.resolved_body h⟩
  rw [p.occurrences_loopHeader?, List.flatMap_map, Program.loopNames]
  simp only [Bound.occurrences_initialized?]

/-- Loops in loops, in both branches and side by side, with bounds of both kinds. -/
def Source.manyLoops : Source where
  name := "loops"
  text := "let n = 2; dotimes(n) \x7b dotimes(3) \x7b read(n); \x7d \x7d\n" ++
    "if (n) \x7b dotimes(n) \x7b \x7d \x7d else \x7b let m; dotimes(m) \x7b \x7d \x7d"

theorem Source.manyLoops_names : ∃ p, manyLoops.parse = .ok p ∧
    p.declarations ++ p.loopNames = ["n", "m", "_dotimes0", "_dotimes0_end", "_dotimes1",
      "_dotimes2", "_dotimes2_end", "_dotimes3", "_dotimes3_end"] ∧
    (p.declarations ++ p.loopNames).Nodup ∧
    ∃ text, manyLoops.compile .compact = .ok text ∧
      ∃ body, C.read text = ("#include <stdio.h>",
        [.word "int", .word "main"] ++ parens [.word "void"] ++ braces body) ∧
      ∀ pre x post, body = pre ++ .word x :: post →
        Resolves p.declarations p.bounds.zipIdx pre x post := by
  have htest : manyLoops.parse.toOption.any (fun p => p.declarations ++ p.loopNames ==
      ["n", "m", "_dotimes0", "_dotimes0_end", "_dotimes1", "_dotimes2", "_dotimes2_end",
        "_dotimes3", "_dotimes3_end"]) = true := by decide +kernel
  obtain ⟨p, hp, hnames⟩ := Source.exists_of_test htest
  obtain ⟨hnodup, text, body, htext, hread, -, -, -, hresolves⟩ := Source.names_resolve hp .compact
  exact ⟨p, hp, by simpa using hnames, hnodup, text, htext, body, hread, hresolves⟩

end BareBones
