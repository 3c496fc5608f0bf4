import BareBones.Proofs.C.Formats

/-!
Constructs found in a list of C tokens by looking at the tokens alone. `occurrences p`
holds what `p` recognizes at each place of the list, from left to right: headers of
loops, calls, declarations. In the tokens of a tree they are found where the tree has
them and nowhere else (`Statement.findsAll`, `Program.occurrences_body`): whatever a
user calls a variable, it is followed by an operator and never by a parenthesis.
-/

namespace BareBones

open C (Lexeme)
open C.Lexeme (parens braces bang forHeader)

/-! ## Statements in preorder -/

mutual

/-- A statement and all statements in its blocks, each before its own blocks. -/
def Statement.preorder : Statement → List Statement
  | .declare x value => [.declare x value]
  | .assign x e => [.assign x e]
  | .ifThen c body => .ifThen c body :: Statement.preorderAll body
  | .ifElse c body otherwise =>
    .ifElse c body otherwise :: (Statement.preorderAll body ++ Statement.preorderAll otherwise)
  | .whileDo c body => .whileDo c body :: Statement.preorderAll body
  | .dotimes b body => .dotimes b body :: Statement.preorderAll body
  | .print first more => [.print first more]
  | .read x => [.read x]

def Statement.preorderAll : List Statement → List Statement
  | [] => []
  | s :: rest => s.preorder ++ Statement.preorderAll rest

end

namespace Statement

def bound? : Statement → Option Bound
  | dotimes b _ => some b.val
  | _ => none

def arguments? : Statement → Option (List PrintArg)
  | print first more => some ((first :: more).map (·.val))
  | _ => none

def target? : Statement → Option String
  | read x => some x.val
  | _ => none

def declaredName? : Statement → Option String
  | declare x _ => some x.val
  | _ => none

end Statement

namespace Program

/-- The bounds of all counted loops, in preorder. -/
def bounds (p : Program) : List Bound :=
  (Statement.preorderAll p.statements).filterMap Statement.bound?

/-- The variables of all `read` statements, in preorder. -/
def reads (p : Program) : List String :=
  (Statement.preorderAll p.statements).filterMap Statement.target?

/-- The arguments of all `print` statements, in preorder. -/
def prints (p : Program) : List (List PrintArg) :=
  (Statement.preorderAll p.statements).filterMap Statement.arguments?

end Program

/-! ## Patterns of tokens -/

namespace C

/-- What `p` recognizes at the places of a list, from left to right. -/
def occurrences {α : Type} (p : List Lexeme → Option α) : List Lexeme → List α
  | [] => []
  | l :: ls => (p (l :: ls)).toList ++ occurrences p ls

/-- What stands behind `w (`. -/
def behindParen? (w : String) : List Lexeme → Option (List Lexeme)
  | .word x :: .mark m :: ls => if x = w ∧ m = "(" then some ls else none
  | _ => none

/-- The tokens up to the first closing parenthesis. -/
def throughParen : List Lexeme → List Lexeme
  | [] => []
  | l :: ls => if l = .mark ")" then [l] else l :: throughParen ls

/-- The header of a `for` loop. -/
def loopHeader? (ls : List Lexeme) : Option (List Lexeme) :=
  (behindParen? "for" ls).map fun rest => .word "for" :: .mark "(" :: throughParen rest

/-- The name in `int name;`. -/
def declaration? : List Lexeme → Option String
  | .word t :: .word x :: .mark m :: _ => if t = "int" ∧ m = ";" then some x else none
  | _ => none

/-- A call of `printf`: what stands between the quotes of its format, and the variables
that it is given. -/
structure PrintCall where
  format : String
  values : List String
deriving DecidableEq

/-- The names in `, x, y`. -/
def valueNames : List Lexeme → List String
  | .mark m :: .word x :: ls => if m = "," then x :: valueNames ls else []
  | _ => []

def printCall? (ls : List Lexeme) : Option PrintCall :=
  match behindParen? "printf" ls with
  | some (.text format :: rest) => some ⟨format, valueNames rest⟩
  | _ => none

/-- The name of a function where it is called. -/
def callee? : List Lexeme → Option String
  | .word x :: .mark m :: _ =>
    if m = "(" ∧ x ∉ ["if", "while", "for"] then some x else none
  | _ => none

/-- `p` finds `found` among the tokens `ls`, whatever comes behind them. -/
def Finds {α : Type} (p : List Lexeme → Option α) (ls : List Lexeme) (found : List α) : Prop :=
  ∀ rest, occurrences p (ls ++ rest) = found ++ occurrences p rest

/-- What a pattern must not take for an occurrence: tokens other than words, a word
before an operator, the words that a condition follows, and a counter that starts. -/
structure Selective {α : Type} (p : List Lexeme → Option α) : Prop where
  other : ∀ l ls, (∀ x, l ≠ .word x) → p (l :: ls) = none
  operator : ∀ x m ls, m ≠ "(" → p (.word x :: .mark m :: ls) = none
  ifTest : ∀ ls, p (.word "if" :: ls) = none
  whileTest : ∀ ls, p (.word "while" :: ls) = none
  counter : ∀ x ls, p (.word "int" :: .word x :: .mark "=" :: ls) = none

theorem behindParen?_operator (w x : String) {m : String} (ls : List Lexeme) (h : m ≠ "(") :
    behindParen? w (.word x :: .mark m :: ls) = none := by
  simp [behindParen?, h]

theorem behindParen?_other (w : String) {l : Lexeme} (ls : List Lexeme) (h : ∀ x, l ≠ .word x) :
    behindParen? w (l :: ls) = none := by
  cases l with
  | word x => exact absurd rfl (h x)
  | _ => rfl

theorem behindParen?_of_ne {w x : String} (ls : List Lexeme) (h : x ≠ w) :
    behindParen? w (.word x :: ls) = none := by
  unfold behindParen?
  split
  · rename_i heq
    cases heq
    simp [h]
  · rfl

theorem selective_loopHeader? : Selective loopHeader? where
  other l ls h := by rw [loopHeader?, behindParen?_other _ _ h]; rfl
  operator x m ls h := by rw [loopHeader?, behindParen?_operator _ _ _ h]; rfl
  ifTest ls := by rw [loopHeader?, behindParen?_of_ne _ (by decide)]; rfl
  whileTest ls := by rw [loopHeader?, behindParen?_of_ne _ (by decide)]; rfl
  counter x ls := rfl

theorem selective_printCall? : Selective printCall? where
  other l ls h := by rw [printCall?, behindParen?_other _ _ h]
  operator x m ls h := by rw [printCall?, behindParen?_operator _ _ _ h]
  ifTest ls := by rw [printCall?, behindParen?_of_ne _ (by decide)]
  whileTest ls := by rw [printCall?, behindParen?_of_ne _ (by decide)]
  counter x ls := rfl

theorem declaration?_of_ne {x : String} (ls : List Lexeme) (h : x ≠ "int") :
    declaration? (.word x :: ls) = none := by
  unfold declaration?
  split
  · rename_i heq
    cases heq
    simp [h]
  · rfl

theorem selective_declaration? : Selective declaration? where
  other l ls h := by
    cases l with
    | word x => exact absurd rfl (h x)
    | _ => rfl
  operator x m ls _ := rfl
  ifTest ls := declaration?_of_ne ls (by decide)
  whileTest ls := declaration?_of_ne ls (by decide)
  counter x ls := rfl

theorem callee?_of_mem {x : String} (ls : List Lexeme) (h : x ∈ ["if", "while", "for"]) :
    callee? (.word x :: ls) = none := by
  unfold callee?
  split
  · rename_i heq
    cases heq
    rw [if_neg fun hx => hx.2 h]
  · rfl

theorem selective_callee? : Selective callee? where
  other l ls h := by
    cases l with
    | word x => exact absurd rfl (h x)
    | _ => rfl
  operator x m ls h := by simp [callee?, h]
  ifTest ls := callee?_of_mem ls (by decide)
  whileTest ls := callee?_of_mem ls (by decide)
  counter x ls := rfl

/-! ## Tokens without an occurrence -/

section

variable {α : Type} {p : List Lexeme → Option α}

theorem occurrences_of_none {l : Lexeme} {ls : List Lexeme} (h : p (l :: ls) = none) :
    occurrences p (l :: ls) = occurrences p ls := by
  rw [occurrences, h]
  rfl

namespace Selective

theorem skip (hp : Selective p) {l : Lexeme} (ls : List Lexeme) (h : ∀ x, l ≠ .word x) :
    occurrences p (l :: ls) = occurrences p ls :=
  occurrences_of_none (hp.other l ls h)

@[simp] theorem skip_mark (hp : Selective p) (m : String) (ls : List Lexeme) :
    occurrences p (.mark m :: ls) = occurrences p ls :=
  hp.skip ls (by simp)

@[simp] theorem skip_number (hp : Selective p) (d : String) (ls : List Lexeme) :
    occurrences p (.number d :: ls) = occurrences p ls :=
  hp.skip ls (by simp)

@[simp] theorem skip_text (hp : Selective p) (t : String) (ls : List Lexeme) :
    occurrences p (.text t :: ls) = occurrences p ls :=
  hp.skip ls (by simp)

/-- A word and the operator behind it. -/
theorem skip_word (hp : Selective p) (x : String) {m : String} (ls : List Lexeme)
    (h : m ≠ "(") : occurrences p (.word x :: .mark m :: ls) = occurrences p ls := by
  rw [occurrences_of_none (hp.operator x m ls h), hp.skip_mark]

end Selective

namespace Finds

theorem nil : Finds p [] [] := fun _ => rfl

theorem append {ls ms : List Lexeme} {as bs : List α} (hl : Finds p ls as) (hm : Finds p ms bs) :
    Finds p (ls ++ ms) (as ++ bs) := by
  intro rest
  rw [List.append_assoc, hl, hm, List.append_assoc]

theorem mark (hp : Selective p) {ls : List Lexeme} {as : List α} (hl : Finds p ls as)
    (m : String) : Finds p (ls ++ [.mark m]) as := by
  intro rest
  rw [List.append_assoc, hl, List.singleton_append, hp.skip_mark]

/-- All that is found in a list on its own. -/
theorem occurrences_eq {ls : List Lexeme} {as : List α} (h : Finds p ls as) :
    occurrences p ls = as := by
  simpa [occurrences] using h []

end Finds

/-- The tokens before a mark other than a parenthesis, in which nothing is found. -/
def Quiet (p : List Lexeme → Option α) (ls : List Lexeme) : Prop :=
  ∀ m rest, m ≠ "(" → occurrences p (ls ++ .mark m :: rest) = occurrences p rest

namespace Quiet

theorem word (hp : Selective p) (x : String) : Quiet p [.word x] := fun _ rest h =>
  hp.skip_word x rest h

theorem number (hp : Selective p) (d : String) : Quiet p [.number d] := by
  intro m rest _
  simp [hp]

theorem join {ls ms : List Lexeme} {m : String} (hl : Quiet p ls)
    (hm : m ≠ "(") (hs : Quiet p ms) : Quiet p (ls ++ .mark m :: ms) := by
  intro n rest hn
  rw [List.append_assoc, List.cons_append, hl _ _ hm, hs _ _ hn]

theorem text (hp : Selective p) (t : String) : Quiet p [.text t] := by
  intro m rest _
  simp [hp]

theorem mark (hp : Selective p) {ls : List Lexeme} (hl : Quiet p ls) (m : String) :
    Quiet p (.mark m :: ls) := by
  intro n rest hn
  rw [List.cons_append, hp.skip_mark, hl n rest hn]

theorem parens (hp : Selective p) {ls : List Lexeme} (hl : Quiet p ls) :
    Quiet p (Lexeme.parens ls) := by
  intro m rest _
  have hclose := hl ")" (.mark m :: rest) (by decide)
  simpa [Lexeme.parens, hp] using hclose

theorem signed (hp : Selective p) {ls : List Lexeme} (hl : Quiet p ls) (n : Bool) :
    Quiet p (bang n ++ ls) := by
  intro m rest hm
  cases n with
  | false => exact hl m rest hm
  | true => simpa [bang, hp] using hl m rest hm

end Quiet

end

end C

open C (Finds Selective Quiet occurrences)

section

variable {α : Type} {p : List Lexeme → Option α}

theorem Arithmetic.mark_eq (op : Arithmetic) : ∃ m, op.mark = .mark m ∧ m ≠ "(" := by
  cases op <;> exact ⟨_, rfl, by decide⟩

theorem Comparison.mark_eq (op : Comparison) : ∃ m, op.mark = .mark m ∧ m ≠ "(" := by
  cases op <;> exact ⟨_, rfl, by decide⟩

mutual

theorem Factor.quiet (hp : Selective p) (f : Factor) : Quiet p f.lexemes := by
  cases f with
  | number n s => exact .number hp _
  | var x s => exact .word hp x
  | group e s => exact .parens hp (e.quiet hp)

theorem Expr.quiet (hp : Selective p) (e : Expr) : Quiet p e.lexemes := by
  cases e with
  | factor f => exact f.quiet hp
  | binary left op right =>
    obtain ⟨m, hm, hne⟩ := op.mark_eq
    rw [Expr.lexemes, hm]
    exact (left.quiet hp).join hne (right.quiet hp)

end

theorem Operand.quiet (hp : Selective p) (x : Operand) : Quiet p [x.lexeme] := by
  cases x with
  | number n => exact .number hp _
  | var x => exact .word hp x

theorem Condition.quiet (hp : Selective p) (c : Condition) : Quiet p c.lexemes := by
  induction c with
  | simple n x => exact (x.quiet hp).signed hp n
  | compare n x op y =>
    obtain ⟨m, hm, hne⟩ := op.mark_eq
    rw [Condition.lexemes, hm]
    exact ((x.quiet hp).join hne (y.quiet hp)).signed hp n
  | group n c ih => exact (ih.parens hp).signed hp n
  | groupThen n c op d ihc ihd =>
    obtain ⟨m, hm, hne⟩ := op.mark_eq
    rw [Condition.lexemes, hm]
    exact ((ihc.parens hp).signed hp n).join hne ihd

/-! ## Trees -/

/-- The constructs that patterns look for: the header of a loop with its number, and
calls. -/
inductive Feature where
  | loop (b : Bound) (k : Nat)
  | print (args : List PrintArg)
  | read (x : String)

def Feature.lexemes : Feature → List Lexeme
  | loop b k => b.lexemes k
  | print args => PrintArg.lexemes args
  | read x => .word "scanf" :: parens [.text "%d", .mark ",", .mark "&", .word x]

theorem PrintArg.quiet_values (hp : Selective p) {ls : List Lexeme} (hl : Quiet p ls)
    (args : List PrintArg) : Quiet p (ls ++ args.flatMap valueLexemes) := by
  induction args generalizing ls with
  | nil => simpa using hl
  | cons a args ih =>
    cases a with
    | text raw => exact ih hl
    | var x =>
      have h := ih (hl.join (by decide) (.word hp x) : Quiet p (ls ++ .mark "," :: [.word x]))
      simpa [valueLexemes] using h

theorem Bound.quiet (hp : Selective p) (b : Bound) (k : Nat) :
    ∃ ls, b.lexemes k = .word "for" :: parens ls ∧ Quiet p ls := by
  cases b with
  | number n =>
    refine ⟨_, rfl, fun m rest hm => ?_⟩
    exact (C.occurrences_of_none (hp.counter _ _)).trans (by simp [hp, hp.skip_word])
  | var x =>
    refine ⟨_, rfl, fun m rest hm => ?_⟩
    exact (C.occurrences_of_none (hp.counter _ _)).trans (by simp [hp, hp.skip_word])

/-- A construct is a word with a parenthesis in which nothing else is found. -/
theorem Feature.quiet (hp : Selective p) (F : Feature) :
    ∃ w ls, F.lexemes = .word w :: parens ls ∧ Quiet p ls := by
  cases F with
  | loop b k => exact ⟨_, b.quiet hp k⟩
  | print args => exact ⟨_, _, rfl, PrintArg.quiet_values hp (.text hp _) args⟩
  | read x =>
    exact ⟨_, _, rfl, (Quiet.text hp "%d").join (by decide) ((Quiet.word hp x).mark hp "&")⟩

/-- In a construct a pattern finds at most the construct itself. -/
theorem Feature.finds (hp : Selective p) {g : Feature → Option α}
    (hg : ∀ F rest, p (F.lexemes ++ rest) = g F) (F : Feature) :
    Finds p F.lexemes ([F].filterMap g) := by
  obtain ⟨w, ls, hF, hquiet⟩ := F.quiet hp
  intro rest
  have hclose := hquiet ")" rest (by decide)
  have hhead := hg F rest
  rw [hF] at hhead ⊢
  rw [List.cons_append, occurrences, ← List.cons_append, hhead]
  have hone : (g F).toList = [F].filterMap g := rfl
  rw [hone, ← hclose]
  simp [parens, hp]

/-- The constructs of statements listed in preorder, when `k` loops come before them. -/
def Statement.features (k : Nat) : List Statement → List Feature
  | [] => []
  | .dotimes b _ :: ss => .loop b.val k :: Statement.features (k + 1) ss
  | .print first more :: ss =>
    .print ((first :: more).map (·.val)) :: Statement.features k ss
  | .read x :: ss => .read x.val :: Statement.features k ss
  | _ :: ss => Statement.features k ss

/-- Later constructs are numbered on from the loops of the earlier ones. -/
theorem Statement.features_append (k : Nat) (ss ts : List Statement) :
    Statement.features k (ss ++ ts) = Statement.features k ss ++
      Statement.features (k + (ss.filterMap Statement.bound?).length) ts := by
  induction ss generalizing k with
  | nil => rfl
  | cons s ss ih =>
    cases s with
    | dotimes b body =>
      have hk : k + (((Statement.dotimes b body :: ss).filterMap Statement.bound?).length) =
          k + 1 + (ss.filterMap Statement.bound?).length := by
        simp only [List.filterMap_cons, Statement.bound?, List.length_cons]
        omega
      rw [hk, List.cons_append, Statement.features, ih, Statement.features, List.cons_append]
    | _ => simp [Statement.features, ih, List.filterMap_cons, Statement.bound?]

mutual

theorem Statement.length_bounds (s : Statement) :
    (s.preorder.filterMap Statement.bound?).length = s.loops := by
  cases s with
  | ifThen c body | whileDo c body => exact Statement.length_boundsAll body
  | ifElse c body otherwise =>
    have hbody := Statement.length_boundsAll body
    have hother := Statement.length_boundsAll otherwise
    simp [Statement.preorder, Statement.loops, Statement.bound?, List.filterMap_cons, hbody,
      hother]
  | dotimes b body =>
    have hbody := Statement.length_boundsAll body
    simp [Statement.preorder, Statement.loops, Statement.bound?, hbody, Nat.add_comm]
  | _ => rfl

theorem Statement.length_boundsAll (ss : List Statement) :
    ((Statement.preorderAll ss).filterMap Statement.bound?).length = Statement.loopsAll ss := by
  cases ss with
  | nil => rfl
  | cons s rest =>
    have hs := s.length_bounds
    have hrest := Statement.length_boundsAll rest
    simp [Statement.preorderAll, Statement.loopsAll, hs, hrest]

end

theorem C.Finds.assign (hp : Selective p) (x : String) (e : Expr) :
    Finds p (.word x :: .mark "=" :: (e.lexemes ++ [.mark ";"])) [] := by
  intro rest
  have he := e.quiet hp ";" rest (by decide)
  simpa [hp.skip_word] using he

theorem C.Finds.braces (hp : Selective p) {ls : List Lexeme} {as : List α} (h : Finds p ls as) :
    Finds p (Lexeme.braces ls) as := by
  intro rest
  simp [Lexeme.braces, hp, h (.mark "\x7d" :: rest)]

theorem C.Finds.otherwise (hp : Selective p) {ls : List Lexeme} {as : List α}
    (h : Finds p ls as) : Finds p (.word "else" :: Lexeme.braces ls) as := by
  intro rest
  have hbrace := hp.operator "else" "\x7b" (ls ++ [.mark "\x7d"] ++ rest) (by decide)
  exact (C.occurrences_of_none hbrace).trans (h.braces hp rest)

/-- A condition and the block behind it. -/
theorem C.Finds.guarded (hp : Selective p) (c : Condition) {w : String}
    (hw : ∀ ls, p (.word w :: ls) = none) {ls : List Lexeme} {as : List α} (h : Finds p ls as) :
    Finds p (.word w :: (parens c.lexemes ++ Lexeme.braces ls)) as := by
  intro rest
  have hc := c.quiet hp ")" (Lexeme.braces ls ++ rest) (by decide)
  have hb := h.braces hp rest
  rw [hb] at hc
  rw [List.cons_append, C.occurrences_of_none (hw _)]
  simpa [Lexeme.parens, hp] using hc

mutual

theorem Statement.finds (hp : Selective p) {g : Feature → Option α}
    (hg : ∀ F rest, p (F.lexemes ++ rest) = g F) (s : Statement) (k : Nat) :
    Finds p (s.lexemes k) ((Statement.features k s.preorder).filterMap g) := by
  cases s with
  | declare x value =>
    cases value with
    | none => exact .nil
    | some e => exact .assign hp x.val e
  | assign x e => exact .assign hp x.val e
  | ifThen c body =>
    exact .guarded hp c hp.ifTest (Statement.findsAll hp hg body k)
  | ifElse c body otherwise =>
    have hbody := Statement.findsAll hp hg body k
    have hother := Statement.findsAll hp hg otherwise (k + Statement.loopsAll body)
    have h := (C.Finds.guarded hp c hp.ifTest hbody).append (hother.otherwise hp)
    simpa [Statement.lexemes, Statement.preorder, Statement.features, Statement.features_append,
      Statement.length_boundsAll] using h
  | whileDo c body =>
    exact .guarded hp c hp.whileTest (Statement.findsAll hp hg body k)
  | dotimes b body =>
    have hbody := (Statement.findsAll hp hg body (k + 1)).braces hp
    have h := (Feature.finds hp hg (.loop b.val k)).append hbody
    rwa [← List.filterMap_append] at h
  | print first more =>
    have h := (Feature.finds hp hg (.print ((first :: more).map (·.val)))).mark hp ";"
    rwa [Feature.lexemes] at h
  | read x =>
    have h := (Feature.finds hp hg (.read x.val)).mark hp ";"
    rwa [Feature.lexemes] at h

/-- In the tokens of statements a pattern finds the constructs that it recognizes. -/
theorem Statement.findsAll (hp : Selective p) {g : Feature → Option α}
    (hg : ∀ F rest, p (F.lexemes ++ rest) = g F) (ss : List Statement) (k : Nat) :
    Finds p (Statement.lexemesAll k ss)
      ((Statement.features k (Statement.preorderAll ss)).filterMap g) := by
  cases ss with
  | nil => exact .nil
  | cons s rest =>
    have hs := Statement.finds hp hg s k
    have hrest := Statement.findsAll hp hg rest (k + s.loops)
    rw [Statement.preorderAll, Statement.features_append, Statement.length_bounds,
      List.filterMap_append]
    exact hs.append hrest

end

end

/-! ## What the patterns find -/

namespace C

theorem valueNames_closeParen (rest : List Lexeme) : valueNames (.mark ")" :: rest) = [] := by
  unfold valueNames
  split
  · rename_i heq
    cases heq
    rw [if_neg (by decide)]
  · rfl

theorem valueNames_lexemes (args : List PrintArg) (rest : List Lexeme) :
    valueNames (args.flatMap PrintArg.valueLexemes ++ .mark ")" :: rest) =
      args.filterMap PrintArg.name? := by
  induction args with
  | nil => exact valueNames_closeParen rest
  | cons a args ih =>
    cases a with
    | text raw => exact ih
    | var x => simpa [PrintArg.valueLexemes, PrintArg.name?, valueNames] using ih

end C

/-- The call that prints `args`. -/
def PrintArg.printCall (args : List PrintArg) : C.PrintCall where
  format := String.ofList (args.flatMap formatChars)
  values := args.filterMap name?

namespace Feature

def header? : Feature → Option (List Lexeme)
  | loop b k => some (b.lexemes k)
  | _ => none

def printCall? : Feature → Option C.PrintCall
  | print args => some (PrintArg.printCall args)
  | _ => none

def callee? : Feature → Option String
  | loop .. => none
  | print _ => some "printf"
  | read _ => some "scanf"

theorem loopHeader?_lexemes (F : Feature) (rest : List Lexeme) :
    C.loopHeader? (F.lexemes ++ rest) = F.header? := by
  cases F with
  | loop b k => cases b <;> simp [lexemes, Bound.lexemes, forHeader, parens, C.loopHeader?,
      C.behindParen?, C.throughParen, header?]
  | _ => rfl

theorem printCall?_lexemes (F : Feature) (rest : List Lexeme) :
    C.printCall? (F.lexemes ++ rest) = F.printCall? := by
  cases F with
  | loop b k => cases b <;> rfl
  | print args =>
    simp [lexemes, PrintArg.lexemes, parens, C.printCall?, C.behindParen?, printCall?,
      PrintArg.printCall, C.valueNames_lexemes]
  | read x => rfl

theorem declaration?_lexemes (F : Feature) (rest : List Lexeme) :
    C.declaration? (F.lexemes ++ rest) = none := by
  cases F with
  | loop b k => cases b <;> rfl
  | _ => rfl

theorem callee?_lexemes (F : Feature) (rest : List Lexeme) :
    C.callee? (F.lexemes ++ rest) = F.callee? := by
  cases F with
  | loop b k => cases b <;> rfl
  | _ => rfl

end Feature

theorem Statement.filterMap_header?_features (k : Nat) (ss : List Statement) :
    (Statement.features k ss).filterMap Feature.header? =
      ((ss.filterMap Statement.bound?).zipIdx k).map fun b => b.1.lexemes b.2 := by
  induction ss generalizing k with
  | nil => rfl
  | cons s ss ih => cases s <;> simp [Statement.features, Feature.header?, Statement.bound?,
      List.filterMap_cons, ih]

theorem Statement.filterMap_printCall?_features (k : Nat) (ss : List Statement) :
    (Statement.features k ss).filterMap Feature.printCall? =
      (ss.filterMap Statement.arguments?).map PrintArg.printCall := by
  induction ss generalizing k with
  | nil => rfl
  | cons s ss ih => cases s <;> simp [Statement.features, Feature.printCall?,
      Statement.arguments?, List.filterMap_cons, ih]

theorem Statement.mem_filterMap_callee?_features (k : Nat) (ss : List Statement) (x : String) :
    x ∈ (Statement.features k ss).filterMap Feature.callee? ↔
      x = "printf" ∧ ss.filterMap Statement.arguments? ≠ [] ∨
        x = "scanf" ∧ ss.filterMap Statement.target? ≠ [] := by
  induction ss generalizing k with
  | nil => simp [Statement.features]
  | cons s ss ih =>
    cases s <;> simp only [Statement.features, Feature.callee?, Statement.arguments?,
      Statement.target?, List.filterMap_cons, List.mem_cons, ih] <;> grind

/-- Statements declare nothing but counters. -/
theorem Statement.finds_declaration? (k : Nat) (ss : List Statement) :
    Finds C.declaration? (Statement.lexemesAll k ss) [] := by
  simpa using Statement.findsAll (g := fun _ => none) C.selective_declaration?
    Feature.declaration?_lexemes ss k

/-! ## Programs -/

/-- What stands between the braces of `main`. -/
def Program.body (p : Program) : List Lexeme :=
  (p.declarations.flatMap fun x => [.word "int", .word x, .mark ";"]) ++
    Statement.lexemesAll 0 p.statements

/-- A source that passes a test on its program is accepted. -/
theorem Source.exists_of_test {s : Source} {test : Program → Bool}
    (h : s.parse.toOption.any test = true) : ∃ p, s.parse = .ok p ∧ test p = true := by
  cases hp : s.parse with
  | ok p => exact ⟨p, rfl, by simpa [hp, Except.toOption] using h⟩
  | error e => simp [hp, Except.toOption] at h

/-- An accepted source is compiled to `main` around the body of its program. -/
theorem Source.compile_body {s : Source} {p : Program} (h : s.parse = .ok p) (f : C.Format) :
    ∃ text, s.compile f = .ok text ∧ C.read text = ("#include <stdio.h>",
      [.word "int", .word "main"] ++ parens [.word "void"] ++ braces p.body) := by
  refine ⟨p.toC f, by rw [Source.compile, h], ?_⟩
  exact C.read_render f (fun _ hx => (Source.isName_of_mem_declarations h hx).isWord)
    (Program.settled_lines (Source.parse_legible h) f)

section

variable {α : Type} {pat : List Lexeme → Option α}

theorem C.Finds.declarations (hp : Selective pat) {d : String → Option α}
    (hd : ∀ x rest, pat (.word "int" :: .word x :: .mark ";" :: rest) = d x) (xs : List String) :
    Finds pat (xs.flatMap fun x => [.word "int", .word x, .mark ";"]) (xs.filterMap d) := by
  induction xs with
  | nil => exact .nil
  | cons x xs ih =>
    have hx : Finds pat [.word "int", .word x, .mark ";"] ([x].filterMap d) := by
      intro rest
      have hskip := hp.skip_word x rest (by decide : ";" ≠ "(")
      rw [List.cons_append, occurrences]
      exact congrArg₂ (· ++ ·) (congrArg Option.toList (hd x rest)) hskip
    have happend := hx.append ih
    rwa [← List.filterMap_append] at happend

theorem Program.occurrences_body (hp : Selective pat) {d : String → Option α}
    {g : Feature → Option α}
    (hd : ∀ x rest, pat (.word "int" :: .word x :: .mark ";" :: rest) = d x)
    (hg : ∀ F rest, pat (F.lexemes ++ rest) = g F) (p : Program) :
    occurrences pat p.body = p.declarations.filterMap d ++
      (Statement.features 0 (Statement.preorderAll p.statements)).filterMap g :=
  ((C.Finds.declarations hp hd p.declarations).append
    (Statement.findsAll hp hg p.statements 0)).occurrences_eq

end

namespace Program

theorem occurrences_loopHeader? (p : Program) :
    occurrences C.loopHeader? p.body = p.bounds.zipIdx.map fun b => b.1.lexemes b.2 := by
  rw [occurrences_body (d := fun _ => none) C.selective_loopHeader? (fun _ _ => rfl)
    Feature.loopHeader?_lexemes, Statement.filterMap_header?_features, bounds]
  simp

theorem occurrences_printCall? (p : Program) :
    occurrences C.printCall? p.body = p.prints.map PrintArg.printCall := by
  rw [occurrences_body (d := fun _ => none) C.selective_printCall? (fun _ _ => rfl)
    Feature.printCall?_lexemes, Statement.filterMap_printCall?_features, prints]
  simp

theorem occurrences_declaration? (p : Program) :
    occurrences C.declaration? p.body = p.declarations := by
  rw [occurrences_body (g := fun _ => none) C.selective_declaration? (fun _ _ => rfl)
    Feature.declaration?_lexemes]
  simp

/-- The functions that a program calls are those of its `print` and `read` statements. -/
theorem mem_occurrences_callee? (p : Program) (x : String) :
    x ∈ occurrences C.callee? p.body ↔
      x = "printf" ∧ p.prints ≠ [] ∨ x = "scanf" ∧ p.reads ≠ [] := by
  rw [occurrences_body (d := fun _ => none) C.selective_callee? (fun _ _ => rfl)
    Feature.callee?_lexemes, List.filterMap_none, List.nil_append,
    Statement.mem_filterMap_callee?_features, prints, reads]

end Program

end BareBones
