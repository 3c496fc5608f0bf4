import BareBones.Proofs.Naming

/-!
What has been read. Every state of the reader spells a list of tokens: those of
the finished statements, of the headers of the open blocks and of the statement
under way. A step that succeeds adds the token it was given and nothing else,
with a number replaced by one of the same value (`Progress.step_advance`), so a
tree spells the tokens it was read from.
-/

namespace BareBones

/-! ## Numbers by value -/

@[simp] theorem Literal.token_reading (n : Literal) : n.token.reading = .inr n.value := by
  rw [Literal.token, Literal.numeral, Token.reading, decimalValue_toString]

theorem Literal.ofDigits?_eq (d : String) :
    ofDigits? d = if h : decimalValue d ≤ maxLiteral then some ⟨decimalValue d, h⟩ else none :=
  rfl

theorem Literal.ofDigits?_eq_some {d : String} {n : Literal} (h : ofDigits? d = some n) :
    n.value = decimalValue d := by
  rw [ofDigits?_eq] at h
  split at h
  · cases h
    rfl
  · cases h

theorem Literal.ofDigits?_isSome_iff (d : String) :
    (ofDigits? d).isSome ↔ decimalValue d ≤ 2147483647 := by
  rw [ofDigits?_eq]
  split
  · rename_i h
    exact iff_of_true rfl h
  · rename_i h
    exact iff_of_false Bool.false_ne_true h

/-! ## The tokens behind a state -/

def Destination.spelled : Destination → List Token
  | declared x => [.keyword .let_, .id x.val, .assign]
  | assigned x => [.id x.val, .assign]

/-- The part of a chain before the factor that comes next. -/
def Expr.spelledLeft : Option (Expr × Arithmetic) → List Token
  | none => []
  | some (e, op) => e.tokens ++ [.arithmetic op]

def OpenGroup.spelled (g : OpenGroup) : List Token := Expr.spelledLeft g.left ++ [.openParen]

/-- Open parentheses, the innermost one first in the list. -/
def OpenGroup.spelledAll : List OpenGroup → List Token
  | [] => []
  | g :: outer => spelledAll outer ++ g.spelled

def Test.keyword : Test → Keyword
  | ifTest => .if_
  | whileTest => .while_

def Link.spelled (l : Link) : List Token :=
  (Condition.group l.negated l.inner).tokens ++ [.comparison l.op]

/-- Links of one condition, the last one first in the list. -/
def Link.spelledAll : List Link → List Token
  | [] => []
  | l :: before => spelledAll before ++ l.spelled

def OpenCondition.spelled (g : OpenCondition) : List Token :=
  Link.spelledAll g.links ++ Condition.sign g.negated ++ [.openParen]

def OpenCondition.spelledAll : List OpenCondition → List Token
  | [] => []
  | g :: outer => spelledAll outer ++ g.spelled

def ConditionFocus.spelled : ConditionFocus → List Token
  | term => []
  | negated => [.not]
  | operand n x => Condition.sign n ++ [x.token]
  | right n x op => Condition.sign n ++ [x.token, .comparison op]
  | whole c => c.tokens
  | group n c => (Condition.group n c).tokens

/-- A block's header, up to its brace. -/
def Opener.spelled : Opener → List Token
  | thenBlock c => c.guard .if_
  | elseBlock c body => (Statement.ifThen c body).tokens ++ [.keyword .else_]
  | whileBlock c => c.guard .while_
  | timesBlock b => [.keyword .dotimes, .openParen, b.val.token, .closeParen]

/-- The statement whose last block is closed. -/
def Opener.statement : Opener → List Statement → Statement
  | thenBlock c, body => .ifThen c body
  | elseBlock c first, body => .ifElse c first body
  | whileBlock c, body => .whileDo c body
  | timesBlock b, body => .dotimes b body

theorem Opener.statement_tokens (o : Opener) (body : List Statement) :
    (o.statement body).tokens = o.spelled ++ braced (Statement.tokensAll body) := by
  cases o <;> simp [statement, spelled, Statement.tokens]

/-- The arguments of a `print` read so far, the latest first in the list. -/
def PrintArg.spelled (first : Located PrintArg) (more : List (Located PrintArg)) : List Token :=
  [.keyword .print, .openParen, first.val.token] ++ PrintArg.furtherTokens more.reverse

def Focus.spelled : Focus → List Token
  | start | statement => []
  | afterThen c body => (Statement.ifThen c body).tokens
  | newName => [.keyword .let_]
  | newValue x => [.keyword .let_, .id x.val]
  | assignSign x => [.id x.val]
  | factor into groups left =>
    into.spelled ++ OpenGroup.spelledAll groups ++ Expr.spelledLeft left
  | chain into groups value => into.spelled ++ OpenGroup.spelledAll groups ++ value.tokens
  | conditionOpen test => [.keyword test.keyword]
  | condition test groups links focus =>
    [.keyword test.keyword, .openParen] ++ OpenCondition.spelledAll groups ++
      Link.spelledAll links ++ focus.spelled
  | blockOpen opener => opener.spelled
  | boundOpen => [.keyword .dotimes]
  | bound => [.keyword .dotimes, .openParen]
  | boundClose b => [.keyword .dotimes, .openParen, b.val.token]
  | printOpen => [.keyword .print]
  | printFirst => [.keyword .print, .openParen]
  | printMore first more => PrintArg.spelled first more ++ [.comma]
  | printNext first more => PrintArg.spelled first more
  | printEnd first more => PrintArg.spelled first more ++ [.closeParen]
  | readOpen => [.keyword .read]
  | readTarget => [.keyword .read, .openParen]
  | readClose x => [.keyword .read, .openParen, .id x.val]
  | readEnd x => [.keyword .read, .openParen, .id x.val, .closeParen]

def Frame.spelled (f : Frame) : List Token :=
  Statement.tokensAll f.before.reverse ++ f.opener.spelled ++ [.openCurly]

/-- Open blocks, the innermost one first in the list. -/
def Frame.spelledAll : List Frame → List Token
  | [] => []
  | f :: outer => spelledAll outer ++ f.spelled

/-- Only `let` makes the next name a new one. -/
def Focus.afterLet : Focus → Bool
  | newName => true
  | _ => false

namespace Progress

/-- What stands before the statement under way. -/
def spelledBefore (p : Progress) : List Token :=
  Frame.spelledAll p.frames ++ Statement.tokensAll p.done.reverse

/-- All that has been read. -/
def spelled (p : Progress) : List Token := p.spelledBefore ++ p.focus.spelled

/-- What the reader knows of names. -/
def naming (p : Progress) : Naming := ⟨p.scope.declared, p.focus.afterLet⟩

@[simp] theorem spelled_await (p : Progress) (f : Focus) :
    (p.await f).spelled = p.spelledBefore ++ f.spelled := rfl

@[simp] theorem spelled_complete (p : Progress) (s : Statement) :
    (p.complete s).spelled = p.spelledBefore ++ s.tokens := by
  simp [spelled, spelledBefore, complete, Focus.spelled, Statement.tokensAll]

@[simp] theorem spelled_openBlock (p : Progress) (opener : Opener) :
    (p.openBlock opener).spelled = p.spelledBefore ++ opener.spelled ++ [.openCurly] := by
  simp [spelled, spelledBefore, openBlock, Focus.spelled, Statement.tokensAll, Frame.spelledAll,
    Frame.spelled]

@[simp] theorem naming_await (p : Progress) (f : Focus) :
    (p.await f).naming = ⟨p.scope.declared, f.afterLet⟩ := rfl

@[simp] theorem naming_complete (p : Progress) (s : Statement) :
    (p.complete s).naming = ⟨p.scope.declared, false⟩ := rfl

@[simp] theorem naming_openBlock (p : Progress) (opener : Opener) :
    (p.openBlock opener).naming = ⟨p.scope.declared, false⟩ := rfl

/-- `q` has read `t` in addition to all that `p` has read. -/
structure Advance (p : Progress) (t : Token) (q : Progress) : Prop where
  ne_eof : t ≠ .eof
  spelled : ∃ u, q.spelled = p.spelled ++ [u] ∧ u.reading = t.reading
  fits : ∀ d, t = .number d → decimalValue d ≤ 2147483647
  named : p.naming.step t = some q.naming

/-- `t` may stand where no name is declared, and the tree keeps it as `u`. -/
structure Uses (p : Progress) (t u : Token) : Prop where
  ne_eof : t ≠ .eof
  reading : u.reading = t.reading
  fits : ∀ d, t = .number d → decimalValue d ≤ 2147483647
  named : Naming.step ⟨p.scope.declared, false⟩ t = some ⟨p.scope.declared, false⟩

/-- Tokens whose spelling says it all. -/
def plain : Token → Bool
  | .punctuation _ | .operator _ | .str _ => true
  | .keyword k => k ≠ .let_
  | _ => false

theorem uses_plain (p : Progress) (t : Token) (h : plain t = true) : p.Uses t t where
  ne_eof := by rintro rfl; cases h
  reading := rfl
  fits := by rintro d rfl; cases h
  named := by cases t <;> simp_all [plain, Naming.step]

theorem uses_number (p : Progress) {d : String} {n : Literal}
    (h : Literal.ofDigits? d = some n) : p.Uses (.number d) n.token where
  ne_eof := by simp
  reading := by rw [Literal.token_reading, Token.reading, Literal.ofDigits?_eq_some h]
  fits := by
    intro d' hd
    cases hd
    rw [← Literal.ofDigits?_isSome_iff, h]
    rfl
  named := rfl

theorem uses_name (p : Progress) {x : String} (h : p.scope.contains x = true) :
    p.Uses (.id x) (.id x) where
  ne_eof := by simp
  reading := rfl
  fits := by simp
  named := by simp_all [Naming.step, Scope.contains]

namespace Advance

variable {p q : Progress} {t u : Token}

theorem await {f : Focus} (hu : p.Uses t u) (hp : p.focus.afterLet = false)
    (hf : f.afterLet = false) (hs : f.spelled = p.focus.spelled ++ [u]) :
    Advance p t (p.await f) where
  ne_eof := hu.ne_eof
  spelled := ⟨u, by rw [spelled_await, hs, Progress.spelled, List.append_assoc], hu.reading⟩
  fits := hu.fits
  named := by rw [naming, hp, naming_await, hf, hu.named]

theorem complete {s : Statement} (hu : p.Uses t u) (hp : p.focus.afterLet = false)
    (hs : s.tokens = p.focus.spelled ++ [u]) : Advance p t (p.complete s) where
  ne_eof := hu.ne_eof
  spelled := ⟨u, by rw [spelled_complete, hs, Progress.spelled, List.append_assoc], hu.reading⟩
  fits := hu.fits
  named := by rw [naming, hp, naming_complete, hu.named]

/-- Two states that spell and know the same advance in the same way. -/
theorem of_same {p' : Progress} (hs : p'.spelled = p.spelled) (hn : p'.naming = p.naming)
    (h : Advance p' t q) : Advance p t q where
  ne_eof := h.ne_eof
  spelled := hs ▸ h.spelled
  fits := h.fits
  named := hn ▸ h.named

end Advance

end Progress

/-! ## What a successful step has done -/

theorem refuse_ne_ok {α : Type} (wanted : Expectation) (t : Located Token) (a : α) :
    refuse wanted t ≠ .ok a := by
  unfold refuse
  split <;> simp

theorem expect_eq_ok {wanted : Token} {t : Located Token} {p q : Progress}
    (h : expect wanted t p = .ok q) : t.val = wanted ∧ q = p := by
  unfold expect at h
  split at h
  · rename_i ht
    cases h
    exact ⟨ht, rfl⟩
  · exact absurd h (refuse_ne_ok _ t q)

theorem bind_eq_ok {α β : Type} {r : Reading α} {f : α → Reading β} {b : β}
    (h : (r >>= f) = .ok b) : ∃ a, r = .ok a ∧ f a = .ok b := by
  cases r with
  | ok a => exact ⟨a, rfl, h⟩
  | error e => cases h

theorem readLiteral_eq_ok {d : String} {s : Span} {n : Literal}
    (h : readLiteral d s = .ok n) : Literal.ofDigits? d = some n := by
  unfold readLiteral at h
  split at h
  · rename_i hn
    cases h
    exact hn
  · cases h

theorem lookup_eq_ok {scope : Scope} {x : Located String} {u : Unit}
    (h : nameChecked (scope.lookup x) = .ok u) : scope.contains x.val = true := by
  unfold Scope.lookup at h
  split at h
  · assumption
  · cases h

theorem lookupTarget_eq_ok {scope : Scope} {x : Located String} {u : Unit}
    (h : nameChecked (scope.lookupTarget x) = .ok u) : scope.contains x.val = true := by
  unfold Scope.lookupTarget at h
  split at h
  · assumption
  · cases h

theorem declare_eq_ok {scope scope' : Scope} {x : Located String}
    (h : nameChecked (scope.declare x) = .ok scope') :
    scope.contains x.val = false ∧ scope' = ⟨x.val :: scope.declared⟩ := by
  unfold Scope.declare at h
  split at h
  · cases h
  · rename_i hx
    cases h
    exact ⟨by simpa using hx, rfl⟩

namespace Progress

variable {p q : Progress} {t : Located Token}

theorem readFactor_uses {f : Factor} (h : p.readFactor t = .ok f) :
    ∃ u, p.Uses t.val u ∧ f.tokens = [u] := by
  unfold readFactor at h
  split at h
  · rename_i d ht
    obtain ⟨n, hn, hf⟩ := bind_eq_ok h
    cases hf
    exact ⟨n.token, ht ▸ p.uses_number (readLiteral_eq_ok hn), rfl⟩
  · rename_i x ht
    obtain ⟨_, hx, hf⟩ := bind_eq_ok h
    cases hf
    exact ⟨.id x, ht ▸ p.uses_name (lookup_eq_ok hx), rfl⟩
  · exact absurd h (refuse_ne_ok _ t f)

theorem readOperand_uses {x : Operand} (h : p.readOperand t = .ok x) :
    p.Uses t.val x.token := by
  unfold readOperand at h
  split at h
  · rename_i d ht
    obtain ⟨n, hn, hf⟩ := bind_eq_ok h
    cases hf
    exact ht ▸ p.uses_number (readLiteral_eq_ok hn)
  · rename_i y ht
    obtain ⟨_, hx, hf⟩ := bind_eq_ok h
    cases hf
    exact ht ▸ p.uses_name (lookup_eq_ok hx)
  · exact absurd h (refuse_ne_ok _ t x)

theorem readBound_uses {b : Located Bound} (h : p.readBound t = .ok b) :
    p.Uses t.val b.val.token := by
  unfold readBound at h
  split at h
  · rename_i d ht
    obtain ⟨n, hn, hf⟩ := bind_eq_ok h
    cases hf
    exact ht ▸ p.uses_number (readLiteral_eq_ok hn)
  · rename_i y ht
    obtain ⟨_, hx, hf⟩ := bind_eq_ok h
    cases hf
    exact ht ▸ p.uses_name (lookup_eq_ok hx)
  · exact absurd h (refuse_ne_ok _ t b)

theorem readPrintArg_uses {a : Located PrintArg} (h : p.readPrintArg t = .ok a) :
    p.Uses t.val a.val.token := by
  unfold readPrintArg at h
  split at h
  · rename_i text ht
    cases h
    exact ht ▸ p.uses_plain (.str text) rfl
  · rename_i y ht
    obtain ⟨_, hx, hf⟩ := bind_eq_ok h
    cases hf
    exact ht ▸ p.uses_name (lookup_eq_ok hx)
  · exact absurd h (refuse_ne_ok _ t a)

theorem readTarget_uses {x : Located String} (h : p.readTarget t = .ok x) :
    p.Uses t.val (.id x.val) := by
  unfold readTarget at h
  split at h
  · rename_i y ht
    obtain ⟨_, hx, hf⟩ := bind_eq_ok h
    cases hf
    exact ht ▸ p.uses_name (lookupTarget_eq_ok hx)
  · exact absurd h (refuse_ne_ok _ t x)

/-- The end of the text has been read at `p`, which leaves `q`. -/
structure Finishes (p q : Progress) : Prop where
  frames : q.frames = []
  scope : q.scope = p.scope
  spelled : p.spelled = Statement.tokensAll q.done.reverse

theorem closeBlock?_advance (h : p.closeBlock? = some q) (hs : p.focus.spelled = [])
    (hp : p.focus.afterLet = false) : Advance p .closeCurly q := by
  have hu := p.uses_plain .closeCurly rfl
  have hd : p.naming.step .closeCurly = some ⟨p.scope.declared, false⟩ := by
    rw [naming, hp, hu.named]
  unfold closeBlock? at h
  split at h
  · cases h
  · rename_i f frames hf
    have hspell : p.spelled = Frame.spelledAll frames ++ Statement.tokensAll f.before.reverse ++
        f.opener.spelled ++ .openCurly :: Statement.tokensAll p.done.reverse := by
      simp [spelled, spelledBefore, hs, hf, Frame.spelledAll, Frame.spelled]
    dsimp only at h
    split at h <;> rename_i ho <;> cases h <;>
      refine ⟨hu.ne_eof, ⟨.closeCurly, ?_, rfl⟩, hu.fits, hd⟩ <;>
      rw [hspell, ho] <;>
      simp [spelledBefore, Opener.spelled, Focus.spelled, Statement.tokens, braced]

/-- Between two statements. -/
theorem stepStatement_advance (h : p.stepStatement t = .ok q) (hs : p.focus.spelled = [])
    (hp : p.focus.afterLet = false) :
    Advance p t.val q ∨ t.val = .eof ∧ p.Finishes q := by
  have keyword (k : Keyword) (hk : plain (.keyword k) = true) {f : Focus}
      (hf : f.afterLet = false) (hsf : f.spelled = [.keyword k]) :
      Advance p (.keyword k) (p.await f) :=
    .await (p.uses_plain _ hk) hp hf (by rw [hs, hsf, List.nil_append])
  unfold stepStatement at h
  split at h <;> rename_i ht
  · cases h
    rw [ht]
    refine Or.inl ⟨by simp, ⟨.keyword .let_, ?_, rfl⟩, by simp, rfl⟩
    rw [spelled_await, spelled, hs, List.append_nil]
    rfl
  · cases h
    exact Or.inl (ht ▸ keyword .if_ rfl rfl rfl)
  · cases h
    exact Or.inl (ht ▸ keyword .while_ rfl rfl rfl)
  · cases h
    exact Or.inl (ht ▸ keyword .dotimes rfl rfl rfl)
  · cases h
    exact Or.inl (ht ▸ keyword .print rfl rfl rfl)
  · cases h
    exact Or.inl (ht ▸ keyword .read rfl rfl rfl)
  · obtain ⟨x, hx, hq⟩ := bind_eq_ok h
    cases hq
    exact Or.inl (.await (readTarget_uses hx) hp rfl (by rw [hs]; rfl))
  · split at h
    · rename_i next hc
      cases h
      exact Or.inl (ht ▸ closeBlock?_advance hc hs hp)
    · exact absurd h (refuse_ne_ok _ t q)
  · split at h
    · rename_i hf
      cases h
      have hf' : p.frames = [] := by simpa using hf
      exact Or.inr ⟨ht, hf', rfl, by simp [spelled, spelledBefore, hs, hf', Frame.spelledAll]⟩
    · exact absurd h (refuse_ne_ok _ t q)
  · exact absurd h (refuse_ne_ok _ t q)

theorem extend_tokens (left : Option (Expr × Arithmetic)) (f : Factor) :
    (Expr.extend left f).tokens = Expr.spelledLeft left ++ f.tokens := by
  cases left with
  | none => rfl
  | some pair => simp [Expr.extend, Expr.spelledLeft]

theorem stepFactor_advance {into : Destination} {groups : List OpenGroup}
    {left : Option (Expr × Arithmetic)} (hf : p.focus = .factor into groups left)
    (h : p.stepFactor into groups left t = .ok q) : Advance p t.val q := by
  unfold stepFactor at h
  split at h
  · rename_i ht
    cases h
    rw [ht]
    apply Advance.await (p.uses_plain .openParen rfl) (by rw [hf]; rfl) rfl
    simp [hf, Focus.spelled, OpenGroup.spelledAll, OpenGroup.spelled, Expr.spelledLeft]
  · obtain ⟨f, hr, hq⟩ := bind_eq_ok h
    cases hq
    obtain ⟨u, hu, hfu⟩ := readFactor_uses hr
    apply Advance.await hu (by rw [hf]; rfl) rfl
    simp [hf, Focus.spelled, extend_tokens, hfu]

theorem statement_tokens (into : Destination) (e : Expr) :
    (into.statement e).tokens = into.spelled ++ e.tokens ++ [.semicolon] := by
  cases into <;> simp [Destination.statement, Destination.spelled, Statement.tokens]

theorem stepChain_advance {into : Destination} {groups : List OpenGroup} {value : Expr}
    (hf : p.focus = .chain into groups value)
    (h : p.stepChain into groups value t = .ok q) : Advance p t.val q := by
  have hp : p.focus.afterLet = false := by rw [hf]; rfl
  unfold stepChain at h
  split at h
  · rename_i op ht
    cases h
    rw [ht]
    apply Advance.await (p.uses_plain (.arithmetic op) rfl) hp rfl
    simp [hf, Focus.spelled, Expr.spelledLeft]
  · obtain ⟨ht, rfl⟩ := expect_eq_ok h
    rw [ht]
    apply Advance.complete (p.uses_plain .semicolon rfl) hp
    simp [hf, Focus.spelled, statement_tokens, OpenGroup.spelledAll]
  · obtain ⟨ht, rfl⟩ := expect_eq_ok h
    rw [ht]
    apply Advance.await (p.uses_plain .closeParen rfl) hp rfl
    simp [hf, Focus.spelled, extend_tokens, OpenGroup.spelledAll, OpenGroup.spelled]

/-- The links of a condition stand before its last part, in the order of reading. -/
theorem foldl_before_tokens (links : List Link) (last : Condition) :
    (links.foldl Link.before last).tokens = Link.spelledAll links ++ last.tokens := by
  induction links generalizing last with
  | nil => rfl
  | cons l links ih => simp [ih, Link.before, Link.spelledAll, Link.spelled]

theorem opener_spelled (test : Test) (c : Condition) :
    (test.opener c).spelled = c.guard test.keyword := by
  cases test <;> rfl

theorem endCondition_advance {test : Test} {groups : List OpenCondition} {links : List Link}
    {focus : ConditionFocus} {last : Condition}
    (hf : p.focus = .condition test groups links focus) (hl : focus.spelled = last.tokens)
    (h : p.endCondition test groups links last t = .ok q) : Advance p t.val q := by
  have hp : p.focus.afterLet = false := by rw [hf]; rfl
  unfold endCondition at h
  dsimp only at h
  split at h
  · obtain ⟨ht, rfl⟩ := expect_eq_ok h
    rw [ht]
    apply Advance.await (p.uses_plain .closeParen rfl) hp rfl
    simp [hf, Focus.spelled, opener_spelled, Condition.guard, foldl_before_tokens, hl,
      OpenCondition.spelledAll]
  · rename_i g outer
    obtain ⟨ht, rfl⟩ := expect_eq_ok h
    have hg (c : Condition) : (ConditionFocus.group g.negated c).spelled =
      (Condition.group g.negated c).tokens := rfl
    rw [ht]
    apply Advance.await (p.uses_plain .closeParen rfl) hp rfl
    simp [hf, Focus.spelled, hg, foldl_before_tokens, hl, OpenCondition.spelledAll,
      OpenCondition.spelled]

theorem stepCondition_advance {test : Test} {groups : List OpenCondition} {links : List Link}
    {focus : ConditionFocus} (hf : p.focus = .condition test groups links focus)
    (h : p.stepCondition test groups links focus t = .ok q) : Advance p t.val q := by
  have hp : p.focus.afterLet = false := by rw [hf]; rfl
  unfold stepCondition at h
  split at h
  · rename_i ht
    cases h
    rw [ht]
    apply Advance.await (p.uses_plain .not rfl) hp rfl
    simp [hf, Focus.spelled, ConditionFocus.spelled]
  · rename_i ht
    cases h
    rw [ht]
    apply Advance.await (p.uses_plain .openParen rfl) hp rfl
    simp [hf, Focus.spelled, ConditionFocus.spelled, OpenCondition.spelledAll,
      OpenCondition.spelled, Link.spelledAll, Condition.sign]
  · obtain ⟨x, hx, hq⟩ := bind_eq_ok h
    cases hq
    apply Advance.await (readOperand_uses hx) hp rfl
    simp [hf, Focus.spelled, ConditionFocus.spelled, Condition.sign]
  · rename_i ht
    cases h
    rw [ht]
    apply Advance.await (p.uses_plain .openParen rfl) hp rfl
    simp [hf, Focus.spelled, ConditionFocus.spelled, OpenCondition.spelledAll,
      OpenCondition.spelled, Link.spelledAll, Condition.sign]
  · obtain ⟨x, hx, hq⟩ := bind_eq_ok h
    cases hq
    apply Advance.await (readOperand_uses hx) hp rfl
    simp [hf, Focus.spelled, ConditionFocus.spelled, Condition.sign]
  · rename_i n x op ht
    cases h
    rw [ht]
    apply Advance.await (p.uses_plain (.comparison op) rfl) hp rfl
    simp [hf, Focus.spelled, ConditionFocus.spelled]
  · exact endCondition_advance hf (by simp [ConditionFocus.spelled]) h
  · obtain ⟨y, hy, hq⟩ := bind_eq_ok h
    cases hq
    apply Advance.await (readOperand_uses hy) hp rfl
    simp [hf, Focus.spelled, ConditionFocus.spelled]
  · exact endCondition_advance hf rfl h
  · rename_i n c op ht
    cases h
    rw [ht]
    apply Advance.await (p.uses_plain (.comparison op) rfl) hp rfl
    simp [hf, Focus.spelled, ConditionFocus.spelled, Link.spelledAll, Link.spelled]
  · exact endCondition_advance hf rfl h

theorem expect_await_advance {wanted : Token} {f : Focus}
    (h : expect wanted t (p.await f) = .ok q) (hw : plain wanted = true)
    (hp : p.focus.afterLet = false) (hf : f.afterLet = false)
    (hs : f.spelled = p.focus.spelled ++ [wanted]) : Advance p t.val q := by
  obtain ⟨ht, rfl⟩ := expect_eq_ok h
  rw [ht]
  exact .await (p.uses_plain wanted hw) hp hf hs

theorem expect_complete_advance {wanted : Token} {s : Statement}
    (h : expect wanted t (p.complete s) = .ok q) (hw : plain wanted = true)
    (hp : p.focus.afterLet = false) (hs : s.tokens = p.focus.spelled ++ [wanted]) :
    Advance p t.val q := by
  obtain ⟨ht, rfl⟩ := expect_eq_ok h
  rw [ht]
  exact .complete (p.uses_plain wanted hw) hp hs

theorem newName_advance (hf : p.focus = .newName) {x : String} (ht : t.val = .id x)
    {scope : Scope} (h : nameChecked (p.scope.declare ⟨x, t.span⟩) = .ok scope) :
    Advance p t.val { p with scope, focus := .newValue ⟨x, t.span⟩ } := by
  obtain ⟨hx, rfl⟩ := declare_eq_ok h
  rw [ht]
  refine ⟨by simp, ⟨.id x, ?_, rfl⟩, by simp, ?_⟩
  · simp [spelled, spelledBefore, hf, Focus.spelled]
  · have hx' : x ∉ p.scope.declared := by simpa [Scope.contains] using hx
    simp [naming, hf, Focus.afterLet, Naming.step, hx']

theorem openBlock_advance {opener : Opener} (hf : p.focus = .blockOpen opener)
    (h : expect .openCurly t (p.openBlock opener) = .ok q) : Advance p t.val q := by
  obtain ⟨ht, rfl⟩ := expect_eq_ok h
  have hu := p.uses_plain .openCurly rfl
  rw [ht]
  refine ⟨hu.ne_eof, ⟨.openCurly, ?_, rfl⟩, hu.fits, ?_⟩
  · rw [spelled_openBlock, spelled, hf]
    rfl
  · rw [naming, hf, naming_openBlock]
    exact hu.named

/-- A step that succeeds has read the token it was given, or has found the end
of a complete program. -/
theorem step_advance (h : p.step t = .ok q) :
    Advance p t.val q ∨ t.val = .eof ∧ p.Finishes q := by
  unfold step at h
  cases hf : p.focus <;> rw [hf] at h <;> have hp := congrArg Focus.afterLet hf
  case start => exact stepStatement_advance h (by rw [hf]; rfl) hp
  case statement => exact stepStatement_advance h (by rw [hf]; rfl) hp
  case afterThen c body =>
    dsimp only at h
    split at h
    · rename_i ht
      cases h
      rw [ht]
      refine Or.inl (.await (p.uses_plain _ rfl) hp rfl ?_)
      simp [hf, Focus.spelled, Opener.spelled]
    · -- without an `else` the statement is complete, and `t` begins the next one
      have hs : (p.complete (.ifThen c body)).spelled = p.spelled := by
        rw [spelled_complete, spelled, hf]
        rfl
      have hn : (p.complete (.ifThen c body)).naming = p.naming := by
        rw [naming_complete, naming, hp]
        rfl
      rcases stepStatement_advance h rfl rfl with ha | ⟨ht, hq⟩
      · exact Or.inl (ha.of_same hs hn)
      · exact Or.inr ⟨ht, hq.frames, hq.scope, hs ▸ hq.spelled⟩
  all_goals left
  case newName =>
    dsimp only at h
    split at h
    · rename_i x ht
      obtain ⟨scope, hd, hq⟩ := bind_eq_ok h
      cases hq
      exact newName_advance hf ht hd
    · exact absurd h (refuse_ne_ok _ t q)
  case newValue x =>
    dsimp only at h
    split at h
    · rename_i ht
      cases h
      rw [ht]
      apply Advance.await (p.uses_plain .assign rfl) hp rfl
      simp [hf, Focus.spelled, Destination.spelled, OpenGroup.spelledAll, Expr.spelledLeft]
    · exact expect_complete_advance h rfl hp (by rw [hf]; rfl)
  case assignSign x =>
    apply expect_await_advance h rfl hp rfl
    simp [hf, Focus.spelled, Destination.spelled, OpenGroup.spelledAll, Expr.spelledLeft]
  case factor into groups left => exact stepFactor_advance hf h
  case chain into groups value => exact stepChain_advance hf h
  case conditionOpen test => exact expect_await_advance h rfl hp rfl (by rw [hf]; rfl)
  case condition test groups links focus => exact stepCondition_advance hf h
  case blockOpen opener => exact openBlock_advance hf h
  case boundOpen => exact expect_await_advance h rfl hp rfl (by rw [hf]; rfl)
  case bound =>
    obtain ⟨b, hb, hq⟩ := bind_eq_ok h
    cases hq
    exact .await (readBound_uses hb) hp rfl (by rw [hf]; rfl)
  case boundClose b => exact expect_await_advance h rfl hp rfl (by rw [hf]; rfl)
  case printOpen => exact expect_await_advance h rfl hp rfl (by rw [hf]; rfl)
  case printFirst =>
    obtain ⟨a, ha, hq⟩ := bind_eq_ok h
    cases hq
    exact .await (readPrintArg_uses ha) hp rfl (by rw [hf]; rfl)
  case printMore first more =>
    obtain ⟨a, ha, hq⟩ := bind_eq_ok h
    cases hq
    apply Advance.await (readPrintArg_uses ha) hp rfl
    simp [hf, Focus.spelled, PrintArg.spelled, PrintArg.furtherTokens]
  case printNext first more =>
    dsimp only at h
    split at h
    · rename_i ht
      cases h
      rw [ht]
      exact .await (p.uses_plain .comma rfl) hp rfl (by rw [hf]; rfl)
    · exact expect_await_advance h rfl hp rfl (by rw [hf]; rfl)
  case printEnd first more =>
    apply expect_complete_advance h rfl hp
    simp [hf, Focus.spelled, PrintArg.spelled, Statement.tokens]
  case readOpen => exact expect_await_advance h rfl hp rfl (by rw [hf]; rfl)
  case readTarget =>
    obtain ⟨x, hx, hq⟩ := bind_eq_ok h
    cases hq
    exact .await (readTarget_uses hx) hp rfl (by rw [hf]; rfl)
  case readClose x => exact expect_await_advance h rfl hp rfl (by rw [hf]; rfl)
  case readEnd x => exact expect_complete_advance h rfl hp (by rw [hf]; rfl)

/-! ## Whole runs -/

/-- `q` has read all of `w` in addition to what `p` has read. -/
structure Advances (p : Progress) (w : List Token) (q : Progress) : Prop where
  spelled : ∃ v, q.spelled = p.spelled ++ v ∧ v.map Token.reading = w.map Token.reading
  fits : LiteralsFit w
  named : p.naming.run w = some q.naming

theorem Advances.refl (p : Progress) : Advances p [] p where
  spelled := ⟨[], by simp, rfl⟩
  fits := by simp [LiteralsFit]
  named := rfl

theorem Advance.advances {r : Progress} {t : Token} {w : List Token} (h : Advance p t q)
    (hw : Advances q w r) : Advances p (t :: w) r where
  spelled := by
    obtain ⟨u, hu, hr⟩ := h.spelled
    obtain ⟨v, hv, hvr⟩ := hw.spelled
    exact ⟨u :: v, by simp [hv, hu], by simp [hr, hvr]⟩
  fits := by
    intro d hd
    rcases List.mem_cons.mp hd with hd | hd
    · exact h.fits d hd.symm
    · exact hw.fits d hd
  named := by
    rw [Naming.run, h.named]
    exact hw.named

end Progress

/-- The values of some tokens, newlines left out. -/
def wordsOf (ts : List (Located Token)) : List Token :=
  (ts.map (·.val)).filter (· ≠ .newline)

theorem wordsOf_cons (t : Located Token) (ts : List (Located Token)) :
    wordsOf (t :: ts) = if t.val = .newline then wordsOf ts else t.val :: wordsOf ts := by
  by_cases h : t.val = .newline <;> simp [wordsOf, h]

/-- A run that succeeds before the end of the text has read every token. -/
theorem Progress.feedAll_advances {p q : Progress} {ts : List (Located Token)}
    (he : ∀ t ∈ ts, t.val ≠ .eof) (h : p.feedAll ts = .ok q) : Advances p (wordsOf ts) q := by
  induction ts generalizing p with
  | nil =>
    cases h
    exact .refl _
  | cons t ts ih =>
    have hts : ∀ u ∈ ts, u.val ≠ .eof := fun u hu => he u (List.mem_cons_of_mem _ hu)
    rw [feedAll] at h
    split at h
    · rename_i next hn
      have hr := ih hts h
      unfold feed at hn
      rw [wordsOf_cons]
      split at hn
      · rename_i ht
        cases hn
        rwa [if_pos ht]
      · rename_i ht
        rw [if_neg ht]
        rcases step_advance hn with ha | ⟨hte, _⟩
        · exact ha.advances hr
        · exact absurd hte (he t (List.mem_cons_self ..))
    · cases h

end BareBones
