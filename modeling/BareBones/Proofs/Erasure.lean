import BareBones.Compile
import BareBones.Proofs.Acceptance

/-!
Programs without their places. `erase` puts every span of a tree, of a token or of
a state of the reader at one and the same place. Reading and erasing commute
(`Progress.step_erase`), so what is read depends on the words of a source alone
(`Source.parse_erase`), and the C text of a program does not depend on its spans
(`Program.toC_erase`).
-/

namespace BareBones

/-- The place that stands for all others. -/
def Span.nowhere : Span := .point .start

/-! ## Trees -/

def Located.erase {α : Type} (x : Located α) : Located α := ⟨x.val, .nowhere⟩

@[simp] theorem Located.erase_val {α : Type} (x : Located α) : x.erase.val = x.val := rfl

@[simp] theorem Located.erase_span {α : Type} (x : Located α) : x.erase.span = .nowhere := rfl

mutual

def Factor.erase : Factor → Factor
  | .number n _ => .number n .nowhere
  | .var x _ => .var x .nowhere
  | .group e _ => .group e.erase .nowhere

def Expr.erase : Expr → Expr
  | .factor f => .factor f.erase
  | .binary left op right => .binary left.erase op right.erase

end

mutual

def Statement.erase : Statement → Statement
  | .declare x value => .declare x.erase (value.map Expr.erase)
  | .assign x e => .assign x.erase e.erase
  | .ifThen c body => .ifThen c (Statement.eraseAll body)
  | .ifElse c body otherwise =>
    .ifElse c (Statement.eraseAll body) (Statement.eraseAll otherwise)
  | .whileDo c body => .whileDo c (Statement.eraseAll body)
  | .dotimes b body => .dotimes b.erase (Statement.eraseAll body)
  | .print first more => .print first.erase (more.map Located.erase)
  | .read x => .read x.erase

def Statement.eraseAll : List Statement → List Statement
  | [] => []
  | s :: rest => s.erase :: Statement.eraseAll rest

end

@[simp] theorem Statement.eraseAll_eq_map (ss : List Statement) :
    Statement.eraseAll ss = ss.map Statement.erase := by
  induction ss with
  | nil => rfl
  | cons s ss ih => rw [Statement.eraseAll, ih, List.map_cons]

def Program.erase (p : Program) : Program := ⟨p.declarations, p.statements.map Statement.erase⟩

/-! ## States of the reader -/

def Expr.eraseLeft (left : Option (Expr × Arithmetic)) : Option (Expr × Arithmetic) :=
  left.map fun l => (l.1.erase, l.2)

def Destination.erase : Destination → Destination
  | declared x => .declared x.erase
  | assigned x => .assigned x.erase

def OpenGroup.erase (g : OpenGroup) : OpenGroup := ⟨Expr.eraseLeft g.left, .nowhere⟩

def Opener.erase : Opener → Opener
  | thenBlock c => .thenBlock c
  | elseBlock c body => .elseBlock c (body.map Statement.erase)
  | whileBlock c => .whileBlock c
  | timesBlock b => .timesBlock b.erase

def Focus.erase : Focus → Focus
  | afterThen c body => .afterThen c (body.map Statement.erase)
  | newValue x => .newValue x.erase
  | assignSign x => .assignSign x.erase
  | factor into groups left =>
    .factor into.erase (groups.map OpenGroup.erase) (Expr.eraseLeft left)
  | chain into groups value => .chain into.erase (groups.map OpenGroup.erase) value.erase
  | blockOpen opener => .blockOpen opener.erase
  | boundClose b => .boundClose b.erase
  | printMore first more => .printMore first.erase (more.map Located.erase)
  | printNext first more => .printNext first.erase (more.map Located.erase)
  | printEnd first more => .printEnd first.erase (more.map Located.erase)
  | readClose x => .readClose x.erase
  | readEnd x => .readEnd x.erase
  | f => f

def Frame.erase (f : Frame) : Frame := ⟨f.opener.erase, f.before.map Statement.erase⟩

/-- An outcome of reading, with `f` to erase what has been read. -/
def Reading.erase {α : Type} (f : α → α) : Reading α → Reading α
  | .ok a => .ok (f a)
  | .error e => .error e.erase

namespace Progress

def erase (p : Progress) : Progress where
  scope := p.scope
  frames := p.frames.map Frame.erase
  done := p.done.map Statement.erase
  focus := p.focus.erase

@[simp] theorem erase_scope (p : Progress) : p.erase.scope = p.scope := rfl

@[simp] theorem erase_frames (p : Progress) : p.erase.frames = p.frames.map Frame.erase := rfl

@[simp] theorem erase_focus (p : Progress) : p.erase.focus = p.focus.erase := rfl

@[simp] theorem erase_await (p : Progress) (f : Focus) :
    (p.await f).erase = p.erase.await f.erase := rfl

@[simp] theorem erase_complete (p : Progress) (s : Statement) :
    (p.complete s).erase = p.erase.complete s.erase := rfl

@[simp] theorem erase_openBlock (p : Progress) (opener : Opener) :
    (p.openBlock opener).erase = p.erase.openBlock opener.erase := rfl

theorem erase_program (p : Progress) : p.erase.program = p.program.erase := by
  simp [program, Program.erase, erase]

end Progress

/-! ## Reading without places -/

section

variable {α β : Type}

theorem Reading.erase_bind {f : α → α} {g : β → β} {r r' : Reading α} {k k' : α → Reading β}
    (hr : r' = Reading.erase f r) (hk : ∀ a, k' (f a) = Reading.erase g (k a)) :
    (r' >>= k') = Reading.erase g (r >>= k) := by
  subst hr
  cases r with
  | ok a => exact hk a
  | error e => rfl

theorem Reading.erase_eq_ok {f : α → α} {r : Reading α} {a : α} (h : Reading.erase f r = .ok a) :
    ∃ b, r = .ok b ∧ f b = a := by
  cases r with
  | ok b => exact ⟨b, rfl, Except.ok.inj h⟩
  | error e => cases h

theorem Reading.erase_eq_error {f : α → α} {r : Reading α} {e : Located ParseError}
    (h : Reading.erase f r = .error e) : ∃ e', r = .error e' ∧ e'.erase = e := by
  cases r with
  | ok b => cases h
  | error e' => exact ⟨e', rfl, Except.error.inj h⟩

theorem refuse_erase (f : α → α) (wanted : Expectation) (t : Located Token) :
    refuse wanted t.erase = Reading.erase f (refuse wanted t) := by
  unfold refuse
  rw [Located.erase_val]
  split <;> rfl

end

theorem expect_erase {wanted : Token} {t : Located Token} {p : Progress} {r : Reading Progress}
    (hr : r = expect wanted t.erase p.erase) :
    r = Reading.erase Progress.erase (expect wanted t p) := by
  subst hr
  unfold expect
  rw [Located.erase_val]
  split
  · rfl
  · exact refuse_erase _ _ t

theorem readLiteral_erase (d : String) (s : Span) :
    readLiteral d .nowhere = Reading.erase id (readLiteral d s) := by
  unfold readLiteral
  split <;> rfl

theorem lookup_erase (scope : Scope) (x : String) (s : Span) :
    nameChecked (scope.lookup ⟨x, .nowhere⟩) =
      Reading.erase id (nameChecked (scope.lookup ⟨x, s⟩)) := by
  unfold Scope.lookup
  dsimp only
  split <;> rfl

theorem lookupTarget_erase (scope : Scope) (x : String) (s : Span) :
    nameChecked (scope.lookupTarget ⟨x, .nowhere⟩) =
      Reading.erase id (nameChecked (scope.lookupTarget ⟨x, s⟩)) := by
  unfold Scope.lookupTarget
  dsimp only
  split <;> rfl

theorem declare_erase (scope : Scope) (x : String) (s : Span) :
    nameChecked (scope.declare ⟨x, .nowhere⟩) =
      Reading.erase id (nameChecked (scope.declare ⟨x, s⟩)) := by
  unfold Scope.declare
  dsimp only
  split <;> rfl

namespace Progress

variable (p : Progress) (t : Located Token)

theorem readFactor_erase :
    p.erase.readFactor t.erase = Reading.erase Factor.erase (p.readFactor t) := by
  unfold readFactor
  rw [Located.erase_val, Located.erase_span]
  split
  · exact Reading.erase_bind (readLiteral_erase _ t.span) fun _ => rfl
  · exact Reading.erase_bind (lookup_erase _ _ t.span) fun _ => rfl
  · exact refuse_erase _ _ t

theorem readOperand_erase : p.erase.readOperand t.erase = Reading.erase id (p.readOperand t) := by
  unfold readOperand
  rw [Located.erase_val, Located.erase_span]
  split
  · exact Reading.erase_bind (readLiteral_erase _ t.span) fun _ => rfl
  · exact Reading.erase_bind (lookup_erase _ _ t.span) fun _ => rfl
  · exact refuse_erase _ _ t

theorem readBound_erase :
    p.erase.readBound t.erase = Reading.erase Located.erase (p.readBound t) := by
  unfold readBound
  rw [Located.erase_val, Located.erase_span]
  split
  · exact Reading.erase_bind (readLiteral_erase _ t.span) fun _ => rfl
  · exact Reading.erase_bind (lookup_erase _ _ t.span) fun _ => rfl
  · exact refuse_erase _ _ t

theorem readPrintArg_erase :
    p.erase.readPrintArg t.erase = Reading.erase Located.erase (p.readPrintArg t) := by
  unfold readPrintArg
  rw [Located.erase_val, Located.erase_span]
  split
  · rfl
  · exact Reading.erase_bind (lookup_erase _ _ t.span) fun _ => rfl
  · exact refuse_erase _ _ t

theorem readTarget_erase :
    p.erase.readTarget t.erase = Reading.erase Located.erase (p.readTarget t) := by
  unfold readTarget
  rw [Located.erase_val, Located.erase_span]
  split
  · exact Reading.erase_bind (lookupTarget_erase _ _ t.span) fun _ => rfl
  · exact refuse_erase _ _ t

theorem closeBlock?_erase : p.erase.closeBlock? = p.closeBlock?.map erase := by
  obtain ⟨scope, frames, done, focus⟩ := p
  cases frames with
  | nil => rfl
  | cons f frames =>
    obtain ⟨opener, before⟩ := f
    cases opener <;>
      simp [closeBlock?, erase, Frame.erase, Opener.erase, await, complete, Focus.erase,
        Statement.erase]

theorem stepStatement_erase :
    p.erase.stepStatement t.erase = Reading.erase erase (p.stepStatement t) := by
  unfold stepStatement
  rw [Located.erase_val]
  split
  iterate 6 rfl
  · exact Reading.erase_bind (p.readTarget_erase t) fun _ => rfl
  · rw [closeBlock?_erase]
    cases p.closeBlock? with
    | none => exact refuse_erase _ _ t
    | some q => rfl
  · rw [erase_frames, List.isEmpty_map]
    split
    · rfl
    · exact refuse_erase _ _ t
  · exact refuse_erase _ _ t

theorem extend_erase (left : Option (Expr × Arithmetic)) (f : Factor) :
    Expr.extend (Expr.eraseLeft left) f.erase = (Expr.extend left f).erase := by
  cases left <;> rfl

theorem statement_erase (into : Destination) (e : Expr) :
    into.erase.statement e.erase = (into.statement e).erase := by
  cases into <;> rfl

theorem stepFactor_erase (into : Destination) (groups : List OpenGroup)
    (left : Option (Expr × Arithmetic)) :
    p.erase.stepFactor into.erase (groups.map OpenGroup.erase) (Expr.eraseLeft left) t.erase =
      Reading.erase erase (p.stepFactor into groups left t) := by
  unfold stepFactor
  rw [Located.erase_val]
  split
  · rfl
  · refine Reading.erase_bind (p.readFactor_erase t) fun f => ?_
    rw [extend_erase]
    rfl

theorem stepChain_operator {t : Located Token} {op : Arithmetic} (ht : t.val = .arithmetic op)
    (into : Destination) (groups : List OpenGroup) (value : Expr) :
    p.stepChain into groups value t = .ok (p.await (.factor into groups (some (value, op)))) := by
  unfold stepChain
  rw [ht]

/-- Without an operator the chain ends, and its group or statement with it. -/
theorem stepChain_end {t : Located Token} (ht : ∀ op, t.val ≠ .arithmetic op)
    (into : Destination) (groups : List OpenGroup) (value : Expr) :
    p.stepChain into groups value t =
      match groups with
      | [] => expect .semicolon t (p.complete (into.statement value))
      | g :: outer =>
        expect .closeParen t
          (p.await (.chain into outer (.extend g.left (.group value (g.paren.upTo t.span))))) := by
  unfold stepChain
  split
  · rename_i op h
    exact absurd h (ht op)
  · rfl
  · rfl

theorem stepChain_erase (into : Destination) (groups : List OpenGroup) (value : Expr) :
    p.erase.stepChain into.erase (groups.map OpenGroup.erase) value.erase t.erase =
      Reading.erase erase (p.stepChain into groups value t) := by
  by_cases hop : ∃ op, t.val = .arithmetic op
  · obtain ⟨op, ht⟩ := hop
    rw [p.stepChain_operator ht, p.erase.stepChain_operator (t := t.erase) ht]
    rfl
  · have ht : ∀ op, t.val ≠ .arithmetic op := fun op h => hop ⟨op, h⟩
    rw [p.stepChain_end ht, p.erase.stepChain_end (t := t.erase) ht]
    cases groups with
    | nil =>
      apply expect_erase
      rw [erase_complete, ← statement_erase]
      rfl
    | cons g outer =>
      apply expect_erase
      rw [erase_await, Focus.erase, ← extend_erase]
      rfl

theorem endCondition_erase (test : Test) (groups : List OpenCondition) (links : List Link)
    (last : Condition) :
    p.erase.endCondition test groups links last t.erase =
      Reading.erase erase (p.endCondition test groups links last t) := by
  unfold endCondition
  dsimp only
  cases groups with
  | nil => cases test <;> exact expect_erase rfl
  | cons g outer => exact expect_erase rfl

theorem stepCondition_erase (test : Test) (groups : List OpenCondition) (links : List Link)
    (focus : ConditionFocus) :
    p.erase.stepCondition test groups links focus t.erase =
      Reading.erase erase (p.stepCondition test groups links focus t) := by
  unfold stepCondition
  rw [Located.erase_val]
  split
  · rfl
  · rfl
  · exact Reading.erase_bind (p.readOperand_erase t) fun _ => rfl
  · rfl
  · exact Reading.erase_bind (p.readOperand_erase t) fun _ => rfl
  · rfl
  · exact p.endCondition_erase t ..
  · exact Reading.erase_bind (p.readOperand_erase t) fun _ => rfl
  · exact p.endCondition_erase t ..
  · rfl
  · exact p.endCondition_erase t ..

/-- One step does the same wherever its token stands. -/
theorem step_erase : p.erase.step t.erase = Reading.erase erase (p.step t) := by
  unfold step
  rw [erase_focus]
  cases p.focus with
  | start => exact p.stepStatement_erase t
  | statement => exact p.stepStatement_erase t
  | afterThen c body =>
    dsimp only [Focus.erase]
    rw [Located.erase_val]
    split
    · rfl
    · have h := (p.complete (.ifThen c body)).stepStatement_erase t
      simpa only [erase_complete, Statement.erase, Statement.eraseAll_eq_map] using h
  | newName =>
    dsimp only [Focus.erase]
    rw [Located.erase_val]
    split
    · exact Reading.erase_bind (declare_erase _ _ t.span) fun _ => rfl
    · exact refuse_erase _ _ t
  | newValue x =>
    dsimp only [Focus.erase]
    rw [Located.erase_val]
    split
    · rfl
    · exact expect_erase rfl
  | assignSign x => exact expect_erase rfl
  | factor into groups left => exact p.stepFactor_erase t into groups left
  | chain into groups value => exact p.stepChain_erase t into groups value
  | conditionOpen test => exact expect_erase rfl
  | condition test groups links focus => exact p.stepCondition_erase t test groups links focus
  | blockOpen opener => exact expect_erase rfl
  | boundOpen => exact expect_erase rfl
  | bound => exact Reading.erase_bind (p.readBound_erase t) fun _ => rfl
  | boundClose b => exact expect_erase rfl
  | printOpen => exact expect_erase rfl
  | printFirst => exact Reading.erase_bind (p.readPrintArg_erase t) fun _ => rfl
  | printMore first more => exact Reading.erase_bind (p.readPrintArg_erase t) fun _ => rfl
  | printNext first more =>
    dsimp only [Focus.erase]
    rw [Located.erase_val]
    split
    · rfl
    · exact expect_erase rfl
  | printEnd first more =>
    apply expect_erase
    rw [erase_complete, Statement.erase, List.map_reverse]
    rfl
  | readOpen => exact expect_erase rfl
  | readTarget => exact Reading.erase_bind (p.readTarget_erase t) fun _ => rfl
  | readClose x => exact expect_erase rfl
  | readEnd x => exact expect_erase rfl

theorem feedAll_erase (ts : List (Located Token)) :
    p.erase.feedAll (ts.map Located.erase) = Reading.erase erase (p.feedAll ts) := by
  induction ts generalizing p with
  | nil => rfl
  | cons t ts ih =>
    have hfeed : p.erase.feed t.erase = Reading.erase erase (p.feed t) := by
      unfold feed
      rw [Located.erase_val, step_erase]
      split <;> rfl
    simp only [List.map_cons, feedAll, hfeed]
    cases p.feed t with
    | ok next => exact ih next
    | error e => rfl

end Progress

theorem parse_erase (ts : List (Located Token)) :
    parse (ts.map Located.erase) = Reading.erase Program.erase (parse ts) := by
  have h := Progress.start.feedAll_erase ts
  have hstart : Progress.start.erase = .start := rfl
  rw [hstart] at h
  rw [parse, parse, h]
  cases Progress.start.feedAll ts with
  | ok p => exact congrArg Except.ok p.erase_program
  | error e => rfl

/-- Tokens at no particular place. -/
def Token.unlocated (w : List Token) : List (Located Token) := w.map fun t => ⟨t, .nowhere⟩

/-- The tokens of a source that count, `eof` included. -/
def Source.significant (s : Source) : List (Located Token) := s.tokens.filter (·.val ≠ .newline)

theorem Source.parse_significant (s : Source) : s.parse = BareBones.parse s.significant := by
  rw [Source.parse, BareBones.parse, BareBones.parse, significant, Progress.feedAll_filter]

theorem Source.significant_eq (s : Source) : ∃ ts e, s.significant = ts ++ [e] ∧ e.val = .eof ∧
    (∀ t ∈ ts, t.val ≠ .eof) ∧ s.words = ts.map (·.val) := by
  obtain ⟨ts, e, hs, he, hts, hw⟩ := s.words_eq
  refine ⟨ts.filter (·.val ≠ .newline), e, ?_, he, ?_, by rw [hw, wordsOf_eq_map]⟩
  · rw [significant, hs, List.filter_append, List.filter_cons_of_pos (by simp [he])]
    rfl
  · intro t ht
    exact (hts t (List.mem_filter.mp ht).1).1

/-- What is read depends on the words of a source, not on where they stand. -/
theorem Source.parse_erase (s : Source) : Reading.erase Program.erase s.parse =
    BareBones.parse (Token.unlocated (s.words ++ [.eof])) := by
  obtain ⟨ts, e, hs, he, -, hw⟩ := s.significant_eq
  have htokens : s.significant.map Located.erase = Token.unlocated (s.words ++ [.eof]) := by
    rw [hs, hw, ← he, Token.unlocated, List.map_append, List.map_append, List.map_map]
    rfl
  rw [parse_significant, ← BareBones.parse_erase, htokens]

/-! ## The C text -/

mutual

theorem Factor.tokensThen_erase (f : Factor) (w : List Token) :
    f.erase.tokensThen w = f.tokensThen w := by
  cases f with
  | number n s => rfl
  | var x s => rfl
  | group e s => rw [Factor.erase, Factor.tokensThen, e.tokensThen_erase, Factor.tokensThen]

theorem Expr.tokensThen_erase (e : Expr) (w : List Token) :
    e.erase.tokensThen w = e.tokensThen w := by
  cases e with
  | factor f => exact f.tokensThen_erase w
  | binary left op right =>
    rw [Expr.erase, Expr.tokensThen, right.tokensThen_erase, left.tokensThen_erase, Expr.tokensThen]

end

mutual

theorem Statement.loops_erase (s : Statement) : s.erase.loops = s.loops := by
  cases s with
  | ifThen c body => exact Statement.loopsAll_erase body
  | ifElse c body otherwise =>
    rw [Statement.erase, Statement.loops, Statement.loopsAll_erase body,
      Statement.loopsAll_erase otherwise, Statement.loops]
  | whileDo c body => exact Statement.loopsAll_erase body
  | dotimes b body =>
    rw [Statement.erase, Statement.loops, Statement.loopsAll_erase body, Statement.loops]
  | _ => rfl

theorem Statement.loopsAll_erase (ss : List Statement) :
    Statement.loopsAll (Statement.eraseAll ss) = Statement.loopsAll ss := by
  cases ss with
  | nil => rfl
  | cons s rest =>
    rw [Statement.eraseAll, Statement.loopsAll, s.loops_erase, Statement.loopsAll_erase rest,
      Statement.loopsAll]

end

theorem C.Statement.items_assign_erase (x : String) (e : Expr) :
    (C.Statement.assign x e.erase).items = (C.Statement.assign x e).items := by
  simp only [C.Statement.items, Expr.tokens, e.tokensThen_erase]

mutual

/-- The pieces of the C text are those of the tree with its places. -/
theorem Statement.items_erase (k : Nat) (s : Statement) :
    C.Statement.itemsAll (s.erase.lower k) = C.Statement.itemsAll (s.lower k) := by
  cases s with
  | declare x value =>
    cases value with
    | none => rfl
    | some e =>
      have h := C.Statement.items_assign_erase x.val e
      simpa [Statement.erase, Statement.lower, C.Statement.itemsAll] using h
  | assign x e =>
    have h := C.Statement.items_assign_erase x.val e
    simpa [Statement.erase, Statement.lower, C.Statement.itemsAll] using h
  | ifThen c body =>
    have hb := Statement.itemsAll_erase k body
    simp only [Statement.erase, Statement.lower, C.Statement.itemsAll, C.Statement.items, hb]
  | ifElse c body otherwise =>
    have hb := Statement.itemsAll_erase k body
    have ho := Statement.itemsAll_erase (k + Statement.loopsAll body) otherwise
    simp only [Statement.erase, Statement.lower, C.Statement.itemsAll, C.Statement.items, hb,
      Statement.loopsAll_erase body, ho]
  | whileDo c body =>
    have hb := Statement.itemsAll_erase k body
    simp only [Statement.erase, Statement.lower, C.Statement.itemsAll, C.Statement.items, hb]
  | dotimes b body =>
    have hb := Statement.itemsAll_erase (k + 1) body
    simp only [Statement.erase, Statement.lower, C.Statement.itemsAll, C.Statement.items, hb,
      Located.erase_val]
  | print first more =>
    have hm : (more.map Located.erase).map (·.val) = more.map (·.val) := by
      rw [List.map_map]
      rfl
    simp only [Statement.erase, Statement.lower, List.map_cons, Located.erase_val, hm]
  | read x => rfl

theorem Statement.itemsAll_erase (k : Nat) (ss : List Statement) :
    C.Statement.itemsAll (Statement.lowerAll k (Statement.eraseAll ss)) =
      C.Statement.itemsAll (Statement.lowerAll k ss) := by
  cases ss with
  | nil => rfl
  | cons s rest =>
    rw [Statement.eraseAll, Statement.lowerAll, C.Statement.itemsAll_append, s.items_erase,
      s.loops_erase, Statement.itemsAll_erase _ rest, Statement.lowerAll,
      C.Statement.itemsAll_append]

end

theorem Program.toC_erase (p : Program) (f : C.Format) : p.erase.toC f = p.toC f := by
  have h := Statement.itemsAll_erase 0 p.statements
  rw [Statement.eraseAll_eq_map] at h
  rw [Program.toC, Program.lines, Program.erase, h]
  rfl

/-- What a report says, apart from the place it cites. -/
def Report.gist (r : Report) : String × List String := (r.label, r.messages)

/-- Sources with the same words are compiled to the same text or refused with the
same message. -/
theorem Source.compile_of_words {s s' : Source} (h : s'.words = s.words) (f : C.Format) :
    (s'.compile f).mapError Report.gist = (s.compile f).mapError Report.gist := by
  have hp : Reading.erase Program.erase s'.parse = Reading.erase Program.erase s.parse := by
    rw [Source.parse_erase, Source.parse_erase, h]
  rw [Source.compile, Source.compile]
  cases hs : s.parse with
  | ok p =>
    rw [hs] at hp
    obtain ⟨p', hs', he⟩ := Reading.erase_eq_ok hp
    rw [hs']
    show Except.ok (p'.toC f) = Except.ok (p.toC f)
    rw [← p'.toC_erase, he, p.toC_erase]
  | error e =>
    rw [hs] at hp
    obtain ⟨e', hs', he⟩ := Reading.erase_eq_error hp
    have hv : e'.val = e.val := by rw [← e'.erase_val, he, e.erase_val]
    rw [hs']
    show Except.error (s'.report e').gist = Except.error (s.report e).gist
    simp only [Source.report, Report.gist, Report.messages, List.map_cons, List.map_nil, hv]

end BareBones
