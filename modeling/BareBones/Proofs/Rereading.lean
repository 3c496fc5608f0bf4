import BareBones.Proofs.Erasure

/-!
Trees read again. The tokens of a tree lead the reader through the states of that
tree, as far as its names are in order: an expression ends with itself as the value
of the chain (`Expr.takes`), a condition with itself before its block
(`Condition.takes`), and statements are added to those that are already done
(`Statement.rereadsAll`). Spans are left out, so that the trees come back as they were.
-/

namespace BareBones

/-! ## The names of a tree -/

mutual

def Factor.names : Factor → List String
  | .number _ _ => []
  | .var x _ => [x]
  | .group e _ => e.names

def Expr.names : Expr → List String
  | .factor f => f.names
  | .binary left _ right => left.names ++ right.names

end

def Operand.names : Operand → List String
  | number _ => []
  | var x => [x]

def Condition.names : Condition → List String
  | simple _ x => x.names
  | compare _ x _ y => x.names ++ y.names
  | group _ c => c.names
  | groupThen _ c _ d => c.names ++ d.names

def Bound.names : Bound → List String
  | number _ => []
  | var x => [x]

def PrintArg.names : PrintArg → List String
  | text _ => []
  | var x => [x]

/-- An occurrence of a name, behind `let` or anywhere else. -/
inductive Mention where
  | declares (x : String)
  | uses (x : String)
deriving DecidableEq

mutual

/-- The names of a statement in preorder: a declared name before the names in its
value, a target before its value, a condition or bound before its blocks. -/
def Statement.mentions : Statement → List Mention
  | .declare x none => [.declares x.val]
  | .declare x (some e) => .declares x.val :: e.names.map .uses
  | .assign x e => .uses x.val :: e.names.map .uses
  | .ifThen c body => c.names.map .uses ++ Statement.mentionsAll body
  | .ifElse c body otherwise =>
    c.names.map .uses ++ Statement.mentionsAll body ++ Statement.mentionsAll otherwise
  | .whileDo c body => c.names.map .uses ++ Statement.mentionsAll body
  | .dotimes b body => b.val.names.map .uses ++ Statement.mentionsAll body
  | .print first more =>
    (first.val.names ++ more.flatMap fun a => a.val.names).map .uses
  | .read x => [.uses x.val]

def Statement.mentionsAll : List Statement → List Mention
  | [] => []
  | s :: rest => s.mentions ++ Statement.mentionsAll rest

end

namespace Mention

def declared? : Mention → Option String
  | declares x => some x
  | uses _ => none

/-- The names that are declared, in the order of their declarations. -/
def declared (ms : List Mention) : List String := ms.filterMap declared?

@[simp] theorem declared_nil : declared [] = [] := rfl

@[simp] theorem declared_append (ms ns : List Mention) :
    declared (ms ++ ns) = declared ms ++ declared ns :=
  List.filterMap_append

@[simp] theorem declared_declares (x : String) (ms : List Mention) :
    declared (declares x :: ms) = x :: declared ms := rfl

@[simp] theorem declared_uses (x : String) (ms : List Mention) :
    declared (uses x :: ms) = declared ms := rfl

@[simp] theorem declared_map_uses (xs : List String) : declared (xs.map uses) = [] := by
  induction xs with
  | nil => rfl
  | cons x xs ih => simpa using ih

end Mention

open Mention (declared)

/-- Each name is declared at most once, and before it is used. -/
structure NamesInOrder (ms : List Mention) : Prop where
  once : (declared ms).Nodup
  beforeUse : ∀ before x after, ms = before ++ .uses x :: after → x ∈ declared before

namespace NamesInOrder

variable {seen ms : List Mention}

theorem iff_forall_lt : NamesInOrder ms ↔ (declared ms).Nodup ∧
    ∀ i < ms.length, ∀ m ∈ ms[i]?, m ∈ (declared (ms.take i)).map .uses ∨ m.declared?.isSome := by
  refine ⟨fun h => ⟨h.once, ?_⟩, fun ⟨ho, hu⟩ => ⟨ho, ?_⟩⟩
  · intro i _ m hm
    cases m with
    | declares x => exact Or.inr rfl
    | uses x =>
      obtain ⟨hi, hx⟩ := List.getElem?_eq_some_iff.mp hm
      have hmem := h.beforeUse (ms.take i) x (ms.drop (i + 1))
        (by rw [← hx, ← List.drop_eq_getElem_cons hi, List.take_append_drop])
      exact Or.inl (List.mem_map_of_mem hmem)
  · rintro before x after rfl
    have hx := hu before.length (by simp) (.uses x) (by simp)
    simpa [Mention.declared?] using hx

instance (ms : List Mention) : Decidable (NamesInOrder ms) := decidable_of_iff' _ iff_forall_lt

theorem of_append (h : NamesInOrder (seen ++ ms)) : NamesInOrder seen where
  once := by
    have ho := h.once
    rw [Mention.declared_append] at ho
    exact (List.nodup_append.mp ho).1
  beforeUse before x after hs := h.beforeUse before x (after ++ ms) (by simp [hs])

theorem mem_of_uses {xs : List String} (h : NamesInOrder (seen ++ xs.map .uses)) :
    ∀ x ∈ xs, x ∈ declared seen := by
  intro x hx
  obtain ⟨before, after, rfl⟩ := List.append_of_mem hx
  have hmem := h.beforeUse (seen ++ before.map .uses) x (after.map .uses) (by simp)
  simpa using hmem

theorem notMem_of_declares {x : String} (h : NamesInOrder (seen ++ [.declares x])) :
    x ∉ declared seen := by
  have ho := h.once
  simp only [Mention.declared_append, Mention.declared_declares, Mention.declared_nil,
    List.nodup_append] at ho
  intro hx
  exact ho.2.2 x hx x (by simp) rfl

end NamesInOrder

/-! ## Runs of the reader -/

theorem Literal.ofDigits?_numeral (n : Literal) : Literal.ofDigits? n.numeral = some n := by
  rw [ofDigits?_eq, numeral, dif_pos (by rw [decimalValue_toString]; exact n.le_max)]
  simp only [decimalValue_toString]

namespace Progress

/-- The reader comes from `p` to `q` over the tokens `w`. -/
inductive Takes : Progress → List Token → Progress → Prop
  | done {p : Progress} : Takes p [] p
  | step {p q r : Progress} {t : Token} {w : List Token} :
      p.step ⟨t, .nowhere⟩ = .ok q → Takes q w r → Takes p (t :: w) r

namespace Takes

variable {p q r : Progress} {t : Token} {w v : List Token}

theorem single (h : p.step ⟨t, .nowhere⟩ = .ok q) : Takes p [t] q := .step h .done

theorem append (h : Takes p w q) (hv : Takes q v r) : Takes p (w ++ v) r := by
  induction h with
  | done => exact hv
  | step hstep _ ih => exact .step hstep (ih hv)

theorem feedAll (h : Takes p w q) (hw : ∀ t ∈ w, t ≠ .newline) :
    p.feedAll (Token.unlocated w) = .ok q := by
  induction h with
  | done => rfl
  | step hstep _ ih =>
    obtain ⟨ht, hw⟩ := List.forall_mem_cons.mp hw
    simp only [Token.unlocated, List.map_cons, Progress.feedAll, feed, if_neg ht, hstep]
    exact ih hw

end Takes

end Progress

open Progress (Takes)

/-! ## Expressions -/

mutual

theorem Factor.takes (f : Factor) {p : Progress} (into : Destination) (groups : List OpenGroup)
    (left : Option (Expr × Arithmetic)) (h : ∀ x ∈ f.names, p.scope.contains x = true) :
    Takes (p.await (.factor into groups left)) f.tokens
      (p.await (.chain into groups (.extend left f.erase))) := by
  cases f with
  | number n s =>
    refine .single ?_
    simp only [Progress.step, Progress.focus_await, Progress.stepFactor, Literal.token,
      Progress.readFactor_number n.ofDigits?_numeral]
    rfl
  | var x s =>
    refine .single ?_
    simp only [Progress.step, Progress.focus_await, Progress.stepFactor,
      Progress.readFactor_name (h x (by simp [Factor.names]))]
    rfl
  | group e s =>
    rw [Factor.tokens_group]
    refine .step (q := p.await (.factor into (⟨left, .nowhere⟩ :: groups) none)) rfl ?_
    exact (e.takes into (⟨left, .nowhere⟩ :: groups) h).append (.single rfl)

theorem Expr.takes (e : Expr) {p : Progress} (into : Destination) (groups : List OpenGroup)
    (h : ∀ x ∈ e.names, p.scope.contains x = true) :
    Takes (p.await (.factor into groups none)) e.tokens (p.await (.chain into groups e.erase)) := by
  cases e with
  | factor f => exact f.takes into groups none h
  | binary left op right =>
    rw [Expr.names, List.forall_mem_append] at h
    rw [Expr.tokens_binary]
    refine (left.takes into groups h.1).append (.step rfl ?_)
    exact right.takes into groups (some (left.erase, op)) h.2

end

/-- The value of a declaration or an assignment and the semicolon behind it. -/
theorem Expr.takes_value (e : Expr) {p : Progress} (into : Destination)
    (h : ∀ x ∈ e.names, p.scope.contains x = true) :
    Takes (p.await (.factor into [] none)) (e.tokens ++ [.semicolon])
      ((p.await (.chain into [] e.erase)).complete (into.statement e.erase)) :=
  (e.takes into [] h).append (.single rfl)

/-! ## Conditions -/

namespace Progress

variable {p : Progress} (test : Test) (groups : List OpenCondition) (links : List Link)

theorem takes_sign (n : Bool) :
    Takes (p.await (.condition test groups links .term)) (Condition.sign n)
      (p.await (.condition test groups links (termFocus n))) := by
  cases n with
  | false => exact .done
  | true => exact .single rfl

theorem takes_operand (n : Bool) {x : Operand} (h : ∀ y ∈ x.names, p.scope.contains y = true) :
    Takes (p.await (.condition test groups links (termFocus n))) [x.token]
      (p.await (.condition test groups links (.operand n x))) := by
  refine .single ?_
  cases x with
  | number v =>
    have hv := v.ofDigits?_numeral
    cases n <;>
      simp only [step, focus_await, termFocus, stepCondition, Operand.token, Literal.token,
        readOperand_number hv] <;> rfl
  | var y =>
    have hy := h y (by simp [Operand.names])
    cases n <;>
      simp only [step, focus_await, termFocus, stepCondition, Operand.token,
        readOperand_name hy] <;> rfl

theorem takes_right (n : Bool) (x : Operand) (op : Comparison) {y : Operand}
    (h : ∀ z ∈ y.names, p.scope.contains z = true) :
    Takes (p.await (.condition test groups links (.right n x op))) [y.token]
      (p.await (.condition test groups links (.whole (.compare n x op y)))) := by
  refine .single ?_
  cases y with
  | number v =>
    simp only [step, focus_await, stepCondition, Operand.token, Literal.token,
      readOperand_number v.ofDigits?_numeral]
    rfl
  | var z =>
    simp only [step, focus_await, stepCondition, Operand.token,
      readOperand_name (h z (by simp [Operand.names]))]
    rfl

theorem takes_openParen (n : Bool) :
    Takes (p.await (.condition test groups links (termFocus n))) [.openParen]
      (p.await (.condition test (⟨links, n⟩ :: groups) [] .term)) := by
  cases n <;> exact .single rfl

end Progress

/-- A condition and the parenthesis behind it, with the links before it. -/
theorem Condition.takes (c : Condition) {p : Progress} (test : Test)
    (groups : List OpenCondition) (links : List Link)
    (h : ∀ x ∈ c.names, p.scope.contains x = true) :
    Takes (p.await (.condition test groups links .term)) (c.tokens ++ [.closeParen])
      (p.closeCondition test (links.foldl Link.before c) groups) := by
  induction c generalizing groups links with
  | simple n x =>
    rw [tokens_simple, List.append_assoc]
    refine (Progress.takes_sign test groups links n).append ?_
    refine (Progress.takes_operand test groups links n h).append (.single ?_)
    exact Progress.endCondition_eq p test groups links _ _ _
  | compare n x op y =>
    rw [names, List.forall_mem_append] at h
    rw [tokens_compare, List.append_assoc]
    refine (Progress.takes_sign test groups links n).append ?_
    refine (Progress.takes_operand test groups links n h.1).append (.step rfl ?_)
    refine (Progress.takes_right test groups links n x op h.2).append (.single ?_)
    exact Progress.endCondition_eq p test groups links _ _ _
  | group n c ih =>
    rw [tokens_group, List.append_assoc, List.cons_append]
    refine (Progress.takes_sign test groups links n).append ?_
    refine (Progress.takes_openParen test groups links n).append ?_
    refine (ih (⟨links, n⟩ :: groups) [] h).append (.single ?_)
    exact Progress.endCondition_eq p test groups links _ _ _
  | groupThen n c op d ihc ihd =>
    rw [names, List.forall_mem_append] at h
    have hc := ihc (⟨links, n⟩ :: groups) [] h.1
    have hop : Takes (p.await (.condition test groups links (.group n c))) [.comparison op]
        (p.await (.condition test groups (⟨n, c, op⟩ :: links) .term)) := .single rfl
    have hd := ihd groups (⟨n, c, op⟩ :: links) h.2
    have hall := (Progress.takes_openParen test groups links n).append (hc.append (hop.append hd))
    simpa [Link.before] using (Progress.takes_sign test groups links n).append hall

/-- A keyword with its condition, up to the block. -/
theorem Condition.takes_guard (c : Condition) {p : Progress} (test : Test)
    (h : ∀ x ∈ c.names, p.scope.contains x = true) :
    Takes (p.await (.conditionOpen test)) (.openParen :: (c.tokens ++ [.closeParen]))
      (p.await (.blockOpen (test.opener c))) :=
  .step rfl (c.takes test [] [] h)

/-! ## Statements -/

namespace Progress

/-- In addition to what `p` has read, `q` has read the statements `ss`, of which the
names come behind those in `seen`. -/
structure Adds (p : Progress) (seen : List Mention) (ss : List Statement) (q : Progress) :
    Prop where
  ready : q.Ready
  frames : q.frames = p.frames
  done : q.settle.done = (ss.map Statement.erase).reverse ++ p.settle.done
  names : q.scope.names = declared (seen ++ Statement.mentionsAll ss)

theorem Adds.cons {p q r : Progress} {seen : List Mention} {s : Statement} {ss : List Statement}
    (hs : Adds p seen [s] q) (hss : Adds q (seen ++ s.mentions) ss r) :
    Adds p seen (s :: ss) r where
  ready := hss.ready
  frames := hss.frames.trans hs.frames
  done := by simp [hss.done, hs.done]
  names := by simp [hss.names, Statement.mentionsAll]

theorem settle_complete (p : Progress) (s : Statement) : (p.complete s).settle = p.complete s := rfl

/-- A statement that ends with a semicolon. -/
theorem Adds.complete {p q : Progress} {seen : List Mention} {s : Statement}
    (hf : q.frames = p.frames) (hd : q.done = p.settle.done)
    (hn : q.scope.names = declared (seen ++ s.mentions)) :
    Adds p seen [s] (q.complete s.erase) where
  ready := trivial
  frames := hf
  done := by
    rw [settle_complete]
    simp [Progress.complete, hd]
  names := by
    rw [Statement.mentionsAll, Statement.mentionsAll, List.append_nil]
    exact hn

/-- The name behind `let`. -/
theorem takes_newName {p : Progress} {seen : List Mention} {x : String}
    (hn : p.scope.names = declared seen) (h : NamesInOrder (seen ++ [.declares x])) :
    ∃ q : Progress, Takes (p.await .newName) [.id x] (q.await (.newValue ⟨x, .nowhere⟩)) ∧
      q.frames = p.frames ∧ q.done = p.done ∧ q.scope.names = declared (seen ++ [.declares x]) := by
  have hx : p.scope.contains x = false := by
    rw [Bool.eq_false_iff, ne_eq, Scope.contains_iff, hn]
    exact h.notMem_of_declares
  refine ⟨{ p with scope := ⟨x :: p.scope.declared⟩ }, .single ?_, rfl, rfl, ?_⟩
  · simp only [step, focus_await]
    show (nameChecked (p.scope.declare ⟨x, .nowhere⟩) >>= _) = _
    simp only [Scope.declare, hx, Bool.false_eq_true, if_false]
    rfl
  · rw [Mention.declared_append, ← hn]
    simp [Scope.names]

theorem contains_of_names {p : Progress} {seen : List Mention} {xs : List String}
    (hn : p.scope.names = declared seen) (h : NamesInOrder (seen ++ xs.map .uses)) :
    ∀ x ∈ xs, p.scope.contains x = true := by
  intro x hx
  rw [Scope.contains_iff, hn]
  exact h.mem_of_uses x hx

theorem Ready.takes_keyword {p q : Progress} (hp : p.Ready) {k : Keyword} {f : Focus}
    (hk : k ≠ .else_) (h : ∀ r : Progress, r.stepStatement ⟨.keyword k, .nowhere⟩ = .ok (r.await f))
    {w : List Token} (hw : Takes (p.settle.await f) w q) : Takes p (.keyword k :: w) q := by
  refine .step ?_ hw
  rw [hp.step_eq _ (by simpa using hk)]
  exact h p.settle

theorem readPrintArg_token {p : Progress} (f : Focus) {a : PrintArg}
    (h : ∀ x ∈ a.names, p.scope.contains x = true) :
    (p.await f).readPrintArg ⟨a.token, .nowhere⟩ = .ok ⟨a, .nowhere⟩ := by
  cases a with
  | text raw => rfl
  | var x => exact readPrintArg_name (h x (by simp [PrintArg.names]))

/-- Further arguments, each behind a comma. -/
theorem takes_arguments {p : Progress} (first : Located PrintArg)
    (more args : List (Located PrintArg))
    (h : ∀ a ∈ args, ∀ x ∈ a.val.names, p.scope.contains x = true) :
    Takes (p.await (.printNext first more)) (PrintArg.furtherTokens args)
      (p.await (.printNext first ((args.map Located.erase).reverse ++ more))) := by
  induction args generalizing more with
  | nil => exact .done
  | cons a args ih =>
    obtain ⟨ha, hargs⟩ := List.forall_mem_cons.mp h
    have hone : Takes (p.await (.printNext first more)) [.comma, a.val.token]
        (p.await (.printNext first (a.erase :: more))) := by
      refine .step (q := p.await (.printMore first more)) rfl (.single ?_)
      simp only [step, focus_await, readPrintArg_token _ ha]
      rfl
    have hmore := ih (a.erase :: more) hargs
    simpa [PrintArg.furtherTokens] using hone.append hmore

theorem takes_bound {p : Progress} {b : Bound} (h : ∀ x ∈ b.names, p.scope.contains x = true) :
    Takes (p.await .bound) [b.token] (p.await (.boundClose ⟨b, .nowhere⟩)) := by
  refine .single ?_
  cases b with
  | number n =>
    simp only [step, focus_await, Bound.token, Literal.token,
      readBound_number n.ofDigits?_numeral]
    rfl
  | var x =>
    simp only [step, focus_await, Bound.token, readBound_name (h x (by simp [Bound.names]))]
    rfl

/-- A block that has been read to its end. -/
structure Closes (p : Progress) (o : Opener) (body : List Statement) (q : Progress) : Prop where
  ready : q.Ready
  frames : q.frames = p.frames
  done : q.settle.done = o.statement body :: p.done
  afterThen : ∀ c, o = .thenBlock c → q.focus = .afterThen c body ∧ q.done = p.done

theorem Ready.closes {p q : Progress} {o : Opener} (h : q.Ready)
    (hf : q.frames = ⟨o, p.done⟩ :: p.frames) :
    ∃ r, q.step ⟨.closeCurly, .nowhere⟩ = .ok r ∧ Closes p o q.settle.done.reverse r ∧
      r.scope = q.scope := by
  rw [h.step_eq _ (by simp)]
  have hs : q.settle.frames = ⟨o, p.done⟩ :: p.frames := by rw [settle_frames, hf]
  simp only [stepStatement, closeBlock?, hs]
  cases o with
  | thenBlock c =>
    exact ⟨_, rfl, ⟨trivial, rfl, rfl, by rintro _ ⟨⟩; exact ⟨rfl, rfl⟩⟩, settle_scope q⟩
  | elseBlock c first => exact ⟨_, rfl, ⟨trivial, rfl, rfl, by simp⟩, settle_scope q⟩
  | whileBlock c => exact ⟨_, rfl, ⟨trivial, rfl, rfl, by simp⟩, settle_scope q⟩
  | timesBlock b => exact ⟨_, rfl, ⟨trivial, rfl, rfl, by simp⟩, settle_scope q⟩

/-- The statements `ss` are read again, wherever the names before them are those in `seen`. -/
def Rereads (seen : List Mention) (ss : List Statement) : Prop :=
  ∀ p : Progress, p.Ready → p.scope.names = declared seen →
    ∃ q, Takes p (Statement.tokensAll ss) q ∧ Adds p seen ss q

/-- The statements with braces around them. -/
theorem Rereads.block {seen : List Mention} {body : List Statement} (h : Rereads seen body)
    {p : Progress} (hn : p.scope.names = declared seen) (o : Opener) :
    ∃ r, Takes (p.await (.blockOpen o)) (braced (Statement.tokensAll body)) r ∧
      Closes p o (body.map Statement.erase) r ∧
      r.scope.names = declared (seen ++ Statement.mentionsAll body) := by
  obtain ⟨q, hq, hadds⟩ := h ((p.await (.blockOpen o)).openBlock o) trivial hn
  obtain ⟨r, hr, hcloses, hscope⟩ := hadds.ready.closes (p := p) hadds.frames
  have hdone : q.settle.done.reverse = body.map Statement.erase := by
    rw [hadds.done]
    simp [openBlock, settle]
  rw [hdone] at hcloses
  exact ⟨r, .step rfl (hq.append (.single hr)), hcloses, by rw [hscope, hadds.names]⟩

/-- The keyword, condition and block of an `if` or a `while`. -/
theorem Rereads.guarded {seen : List Mention} {c : Condition} {body : List Statement}
    (hc : NamesInOrder (seen ++ c.names.map .uses))
    (h : Rereads (seen ++ c.names.map .uses) body) (test : Test) {p : Progress} (hp : p.Ready)
    (hn : p.settle.scope.names = declared seen) :
    ∃ r, Takes p (c.guard test.keyword ++ braced (Statement.tokensAll body)) r ∧
      Closes p.settle (test.opener c) (body.map Statement.erase) r ∧
      r.scope.names = declared (seen ++ c.names.map .uses ++ Statement.mentionsAll body) := by
  have hguard := c.takes_guard test (contains_of_names hn hc)
  have hn' : p.settle.scope.names = declared (seen ++ c.names.map .uses) := by simpa using hn
  obtain ⟨r, hr, hcloses, hscope⟩ := h.block hn' (test.opener c)
  refine ⟨r, ?_, hcloses, hscope⟩
  cases test with
  | ifTest => exact hp.takes_keyword (by simp [Test.keyword]) (fun _ => rfl) (hguard.append hr)
  | whileTest => exact hp.takes_keyword (by simp [Test.keyword]) (fun _ => rfl) (hguard.append hr)

/-- The statement that ends with the block. -/
theorem Closes.adds {p q : Progress} {o : Opener} {body : List Statement} {seen : List Mention}
    {s : Statement} (h : Closes p.settle o body q) (hs : o.statement body = s.erase)
    (hn : q.scope.names = declared (seen ++ s.mentions)) : Adds p seen [s] q where
  ready := h.ready
  frames := by rw [h.frames, settle_frames]
  done := by rw [h.done, hs]; rfl
  names := by simpa [Statement.mentionsAll] using hn

namespace Rereads

variable {seen : List Mention}

theorem nil : Rereads seen [] :=
  fun p hp hn => ⟨p, .done, hp, rfl, rfl, by simpa [Statement.mentionsAll] using hn⟩

theorem cons {s : Statement} {ss : List Statement} (hs : Rereads seen [s])
    (hss : Rereads (seen ++ s.mentions) ss) : Rereads seen (s :: ss) := by
  intro p hp hn
  obtain ⟨q, hq, hadds⟩ := hs p hp hn
  have hnames : q.scope.names = declared (seen ++ s.mentions) := by
    simpa [Statement.mentionsAll] using hadds.names
  obtain ⟨r, hr, hrest⟩ := hss q hadds.ready hnames
  refine ⟨r, ?_, hadds.cons hrest⟩
  simpa [Statement.tokensAll] using hq.append hr

/-- A single statement. An `if` before it that might have an `else` is complete. -/
theorem single {s : Statement} (h : ∀ p : Progress, p.Ready →
    p.settle.scope.names = declared seen → ∃ q, Takes p s.tokens q ∧ Adds p seen [s] q) :
    Rereads seen [s] := by
  intro p hp hn
  rw [← p.settle_scope] at hn
  simpa [Statement.tokensAll] using h p hp hn

theorem declare {x : Located String} (h : NamesInOrder (seen ++ [.declares x.val])) :
    Rereads seen [.declare x none] := by
  refine single fun p hp hn => ?_
  obtain ⟨q, hq, hf, hd, hs⟩ := takes_newName hn h
  refine ⟨_, hp.takes_keyword (by simp) (fun _ => rfl) (hq.append (.single rfl)), ?_⟩
  exact .complete (s := .declare x none) (hf.trans p.settle_frames) hd hs

theorem declareValue {x : Located String} {e : Expr}
    (h : NamesInOrder (seen ++ .declares x.val :: e.names.map .uses)) :
    Rereads seen [.declare x (some e)] := by
  rw [List.append_cons] at h
  refine single fun p hp hn => ?_
  obtain ⟨q, hq, hf, hd, hs⟩ := takes_newName hn h.of_append
  have he := e.takes_value (.declared ⟨x.val, .nowhere⟩) (contains_of_names hs h)
  refine ⟨_, hp.takes_keyword (by simp) (fun _ => rfl) (hq.append (.step rfl he)), ?_⟩
  refine .complete (s := .declare x (some e)) (hf.trans p.settle_frames) hd (hs.trans ?_)
  simp [Statement.mentions]

theorem assign {x : Located String} {e : Expr}
    (h : NamesInOrder (seen ++ (x.val :: e.names).map .uses)) : Rereads seen [.assign x e] := by
  refine single fun p hp hn => ?_
  obtain ⟨hx, he⟩ := List.forall_mem_cons.mp (contains_of_names hn h)
  have hstep : p.step ⟨.id x.val, .nowhere⟩ =
      .ok (p.settle.await (.assignSign ⟨x.val, .nowhere⟩)) := by
    rw [hp.step_eq _ (by simp), stepStatement]
    simp only [readTarget_name hx]
    rfl
  refine ⟨_, .step hstep (.step rfl (e.takes_value (.assigned ⟨x.val, .nowhere⟩) he)), ?_⟩
  refine .complete (s := .assign x e) p.settle_frames rfl (hn.trans ?_)
  simp [Statement.mentions]

/-- An `if` without an `else`, or a `while`. -/
theorem tested (test : Test) {c : Condition} {body : List Statement}
    (hc : NamesInOrder (seen ++ c.names.map .uses))
    (h : Rereads (seen ++ c.names.map .uses) body) :
    Rereads seen [(test.opener c).statement body] := by
  refine single fun p hp hn => ?_
  obtain ⟨r, hr, hcloses, hscope⟩ := h.guarded hc test hp hn
  rw [← opener_spelled, ← Opener.statement_tokens] at hr
  refine ⟨r, hr, hcloses.adds ?_ (hscope.trans ?_)⟩
  · cases test <;> simp [Test.opener, Opener.statement, Statement.erase]
  · cases test <;> simp [Test.opener, Opener.statement, Statement.mentions]

theorem ifElse {c : Condition} {body otherwise : List Statement}
    (hc : NamesInOrder (seen ++ c.names.map .uses))
    (h : Rereads (seen ++ c.names.map .uses) body)
    (ho : Rereads (seen ++ c.names.map .uses ++ Statement.mentionsAll body) otherwise) :
    Rereads seen [.ifElse c body otherwise] := by
  refine single fun p hp hn => ?_
  obtain ⟨q, hq, hthen, hscope⟩ := h.guarded hc .ifTest hp hn
  -- the `if` is not among the statements done before it is known whether an `else` follows
  obtain ⟨hfocus, hdone⟩ := hthen.afterThen c rfl
  obtain ⟨r, hr, helse, hscope'⟩ := ho.block hscope (.elseBlock c (body.map Statement.erase))
  have hstep : q.step ⟨.keyword .else_, .nowhere⟩ =
      .ok (q.await (.blockOpen (.elseBlock c (body.map Statement.erase)))) := by
    simp [step, hfocus]
  refine ⟨r, hq.append (.step hstep hr), helse.ready, ?_, ?_, ?_⟩
  · rw [helse.frames, hthen.frames, p.settle_frames]
  · rw [helse.done, hdone]
    simp [Opener.statement, Statement.erase]
  · rw [hscope']
    simp [Statement.mentionsAll, Statement.mentions]

theorem dotimes {b : Located Bound} {body : List Statement}
    (hb : NamesInOrder (seen ++ b.val.names.map .uses))
    (h : Rereads (seen ++ b.val.names.map .uses) body) : Rereads seen [.dotimes b body] := by
  refine single fun p hp hn => ?_
  have hbound := takes_bound (contains_of_names hn hb)
  have hn' : p.settle.scope.names = declared (seen ++ b.val.names.map .uses) := by simpa using hn
  obtain ⟨r, hr, hcloses, hscope⟩ := h.block hn' (.timesBlock b.erase)
  have hheader := Takes.step (p := p.settle.await .boundOpen) (t := .openParen) rfl
    (hbound.append (.step (t := .closeParen) rfl hr))
  refine ⟨r, hp.takes_keyword (by simp) (fun _ => rfl) hheader, hcloses.adds ?_ ?_⟩
  · simp [Opener.statement, Statement.erase]
  · rw [Statement.mentions, ← List.append_assoc, hscope]

theorem print {first : Located PrintArg} {more : List (Located PrintArg)}
    (h : NamesInOrder (seen ++
      (first.val.names ++ more.flatMap fun a => a.val.names).map .uses)) :
    Rereads seen [.print first more] := by
  refine single fun p hp hn => ?_
  obtain ⟨hfirst, hmore⟩ := List.forall_mem_append.mp (contains_of_names hn h)
  have hone : Takes (p.settle.await .printFirst) [first.val.token]
      (p.settle.await (.printNext first.erase [])) := by
    refine .single ?_
    simp only [step, focus_await, readPrintArg_token _ hfirst]
    rfl
  have hargs := takes_arguments first.erase [] more
    fun a ha x hx => hmore x (List.mem_flatMap.mpr ⟨a, ha, hx⟩)
  have hend := hone.append (hargs.append
    (.step (t := .closeParen) rfl (.single (t := .semicolon) rfl)))
  refine ⟨_, hp.takes_keyword (by simp) (fun _ => rfl) (.step rfl hend), ?_⟩
  have hprint : (Statement.print first more).erase =
      .print first.erase ((more.map Located.erase).reverse ++ []).reverse := by
    simp [Statement.erase]
  rw [← hprint]
  refine .complete (s := .print first more) p.settle_frames rfl (hn.trans ?_)
  rw [Statement.mentions, Mention.declared_append, Mention.declared_map_uses, List.append_nil]

theorem read {x : Located String} (h : NamesInOrder (seen ++ [x.val].map .uses)) :
    Rereads seen [.read x] := by
  refine single fun p hp hn => ?_
  have htarget : Takes (p.settle.await .readTarget) [.id x.val]
      (p.settle.await (.readClose ⟨x.val, .nowhere⟩)) := by
    have hx : (p.settle.await .readTarget).scope.contains x.val = true :=
      contains_of_names hn h x.val (by simp)
    refine .single ?_
    simp only [step, focus_await, readTarget_name hx]
    rfl
  refine ⟨_, hp.takes_keyword (by simp) (fun _ => rfl)
    (.step rfl (htarget.append (.step rfl (.single rfl)))), ?_⟩
  refine .complete (s := .read x) p.settle_frames rfl (hn.trans ?_)
  simp [Statement.mentions]

end Rereads

end Progress

open Progress (Rereads)

mutual

/-- One case for each kind of statement. -/
theorem Statement.rereads (s : Statement) {seen : List Mention}
    (h : NamesInOrder (seen ++ s.mentions)) : Rereads seen [s] := by
  cases s with
  | declare x value =>
    cases value with
    | none => exact .declare h
    | some e => exact .declareValue h
  | assign x e => exact .assign h
  | ifThen c body =>
    rw [Statement.mentions, ← List.append_assoc] at h
    exact .tested .ifTest h.of_append (Statement.rereadsAll body h)
  | ifElse c body otherwise =>
    rw [Statement.mentions, ← List.append_assoc, ← List.append_assoc] at h
    exact .ifElse h.of_append.of_append (Statement.rereadsAll body h.of_append)
      (Statement.rereadsAll otherwise h)
  | whileDo c body =>
    rw [Statement.mentions, ← List.append_assoc] at h
    exact .tested .whileTest h.of_append (Statement.rereadsAll body h)
  | dotimes b body =>
    rw [Statement.mentions, ← List.append_assoc] at h
    exact .dotimes h.of_append (Statement.rereadsAll body h)
  | print first more => exact .print h
  | read x => exact .read h

theorem Statement.rereadsAll (ss : List Statement) {seen : List Mention}
    (h : NamesInOrder (seen ++ Statement.mentionsAll ss)) : Rereads seen ss := by
  cases ss with
  | nil => exact .nil
  | cons s rest =>
    rw [Statement.mentionsAll, ← List.append_assoc] at h
    exact .cons (s.rereads h.of_append) (Statement.rereadsAll rest h)

end

end BareBones
