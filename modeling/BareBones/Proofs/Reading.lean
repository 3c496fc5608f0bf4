import BareBones.Proofs.NameUse

/-!
Sentences are read. `Reads p w Q` says that from `p` any tokens with the terminals
`w` and with numbers in range are read and lead to a state with `Q`, unless a name
among them is refused. Each production has one lemma that puts such statements
together, and `readable_of_derives` collects them along a derivation.
-/

namespace BareBones

open Grammar

/-- Tokens that carry no characters of their own. -/
def Token.isFixed : Token → Bool
  | punctuation _ | operator _ | keyword _ => true
  | _ => false

namespace Progress

def Reads (p : Progress) (w : List Terminal) (Q : Progress → Prop) : Prop :=
  ∀ ts : List (Located Token), ts.map (·.val.terminal) = w → LiteralsFit (ts.map (·.val)) →
    (∃ q, p.feedAll ts = .ok q ∧ p.naming.run (ts.map (·.val)) = some q.naming ∧ Q q) ∨
      ∃ n s, p.feedAll ts = .error ⟨.name n, s⟩ ∧ p.naming.run (ts.map (·.val)) = none

namespace Reads

variable {p : Progress} {w v : List Terminal} {Q R : Progress → Prop}

theorem done (hQ : Q p) : Reads p [] Q := by
  intro ts hts _
  obtain rfl := List.map_eq_nil_iff.mp hts
  exact Or.inl ⟨p, rfl, rfl, hQ⟩

theorem append (h : Reads p w R) (hR : ∀ q, R q → Reads q v Q) : Reads p (w ++ v) Q := by
  intro ts hts hl
  obtain ⟨ts₁, ts₂, rfl, h₁, h₂⟩ := List.map_eq_append_iff.mp hts
  rw [List.map_append] at hl
  have hl₁ : LiteralsFit (ts₁.map (·.val)) := fun d hd => hl d (List.mem_append_left _ hd)
  have hl₂ : LiteralsFit (ts₂.map (·.val)) := fun d hd => hl d (List.mem_append_right _ hd)
  rw [List.map_append, Naming.run_append, feedAll_append]
  rcases h ts₁ h₁ hl₁ with ⟨q, hq, hn, hRq⟩ | ⟨n, s, he, hn⟩
  · rw [hq, hn]
    exact hR q hRq ts₂ h₂ hl₂
  · rw [he, hn]
    exact Or.inr ⟨n, s, rfl, rfl⟩

theorem mono (h : Reads p w R) (hRQ : ∀ q, R q → Q q) : Reads p w Q := by
  intro ts hts hl
  refine (h ts hts hl).imp_left ?_
  rintro ⟨q, hq, hn, hR⟩
  exact ⟨q, hq, hn, hRQ q hR⟩

/-- One token of the kind `v`, judged by a single step. -/
theorem single {v : Terminal} (he : v ≠ .eof) (hf : v ≠ .foreign)
    (h : ∀ t : Located Token, t.val.terminal = v → LiteralsFit [t.val] →
      (∃ q, p.step t = .ok q ∧ Q q) ∨ ∃ n s, p.step t = .error ⟨.name n, s⟩) :
    Reads p [v] Q := by
  intro ts hts hl
  obtain ⟨t, us, rfl, ht, hus⟩ := List.map_eq_cons_iff.mp hts
  obtain rfl := List.map_eq_nil_iff.mp hus
  have hnl : t.val ≠ .newline := by
    intro hn
    rw [hn] at ht
    exact hf ht.symm
  have hne : t.val ≠ .eof := by
    intro hn
    rw [hn] at ht
    exact he ht.symm
  rcases h t ht hl with ⟨q, hq, hQ⟩ | ⟨n, s, hs⟩
  · refine Or.inl ⟨q, ?_, ?_, hQ⟩
    · simp only [feedAll, feed, if_neg hnl, hq]
    · rcases step_advance hq with hadv | ⟨hte, _⟩
      · simp [Naming.run, hadv.named]
      · exact absurd hte hne
  · refine Or.inr ⟨n, s, ?_, ?_⟩
    · simp only [feedAll, feed, if_neg hnl, hs]
    · simp [Naming.run, naming_step_of_name_error hs]

theorem cons {v : Terminal} (h : Reads p [v] R) (hR : ∀ q, R q → Reads q w Q) :
    Reads p (v :: w) Q :=
  append h hR

/-- One token that has a single spelling. -/
theorem symbol (t : Token) (ht : t.isFixed = true) (next : Span → Progress)
    (h : ∀ s, p.step ⟨t, s⟩ = .ok (next s)) (hn : ∀ s, Reads (next s) w Q) :
    Reads p (t.terminal :: w) Q := by
  have hone : Reads p [t.terminal] fun q => ∃ s, q = next s := by
    apply single
    · cases t <;> simp_all [Token.isFixed]
    · cases t <;> simp_all [Token.isFixed]
    · rintro ⟨u, s⟩ hu _
      have hut : u = t := by cases t <;> cases u <;> simp_all [Token.isFixed]
      subst hut
      exact Or.inl ⟨next s, h s, s, rfl⟩
  apply hone.cons
  rintro q ⟨s, rfl⟩
  exact hn s

/-- A name that may stand here. -/
theorem name (use : NameUse) (hu : p.focus.use? = some use) (next : String → Span → Progress)
    (h : ∀ x s, (p.naming.step (.id x)).isSome = true → p.step ⟨.id x, s⟩ = .ok (next x s))
    (hn : ∀ x s, Reads (next x s) w Q) : Reads p (.ident :: w) Q := by
  have hone : Reads p [.ident] fun q => ∃ x s, q = next x s := by
    apply single (by simp) (by simp)
    rintro ⟨u, s⟩ ht _
    cases u with
    | id x =>
      cases hx : p.naming.step (.id x) with
      | none => exact Or.inr ⟨_, _, step_name_refused s hu hx⟩
      | some m => exact Or.inl ⟨next x s, h x s (by rw [hx]; rfl), x, s, rfl⟩
    | _ => simp at ht
  apply hone.cons
  rintro q ⟨x, s, rfl⟩
  exact hn x s

/-- A number in range. -/
theorem number (next : Literal → Span → Progress)
    (h : ∀ d n s, Literal.ofDigits? d = some n → p.step ⟨.number d, s⟩ = .ok (next n s))
    (hn : ∀ n s, Reads (next n s) w Q) : Reads p (.number :: w) Q := by
  have hone : Reads p [.number] fun q => ∃ n s, q = next n s := by
    apply single (by simp) (by simp)
    rintro ⟨u, s⟩ hu hl
    cases u with
    | number d =>
      have hd : decimalValue d ≤ 2147483647 := hl d (by simp)
      obtain ⟨n, hn⟩ := Option.isSome_iff_exists.mp ((Literal.ofDigits?_isSome_iff d).mpr hd)
      exact Or.inl ⟨next n s, h d n s hn, n, s, rfl⟩
    | _ => simp at hu
  apply hone.cons
  rintro q ⟨n, s, rfl⟩
  exact hn n s

theorem text (next : String → Span → Progress)
    (h : ∀ x s, p.step ⟨.str x, s⟩ = .ok (next x s))
    (hn : ∀ x s, Reads (next x s) w Q) : Reads p (.text :: w) Q := by
  have hone : Reads p [.text] fun q => ∃ x s, q = next x s := by
    apply single (by simp) (by simp)
    rintro ⟨u, s⟩ hu _
    cases u with
    | str x => exact Or.inl ⟨next x s, h x s, x, s, rfl⟩
    | _ => simp at hu
  apply hone.cons
  rintro q ⟨x, s, rfl⟩
  exact hn x s

end Reads

/-! ## Names and numbers that are in order -/

@[simp] theorem focus_await (p : Progress) (f : Focus) : (p.await f).focus = f := rfl

section

variable {p : Progress} {f : Focus} {x d : String} {n : Literal} {s : Span}

/-- A name that does not follow a `let` is in order only if it is declared. -/
theorem contains_of_step (hf : p.focus.afterLet = false)
    (h : (p.naming.step (.id x)).isSome = true) : p.scope.contains x = true := by
  rw [naming, hf, Naming.step] at h
  simp only [Bool.false_eq_true, if_false] at h
  split at h
  · rename_i hx
    simpa [Scope.contains] using hx
  · cases h

theorem contains_of_await (hf : f.afterLet = false)
    (h : ((p.await f).naming.step (.id x)).isSome = true) : p.scope.contains x = true :=
  contains_of_step (p := p.await f) hf h

theorem lookup_ok (h : p.scope.contains x = true) :
    nameChecked (p.scope.lookup ⟨x, s⟩) = .ok () := by
  rw [Scope.lookup, if_pos h]
  rfl

theorem readLiteral_ok (h : Literal.ofDigits? d = some n) : readLiteral d s = .ok n := by
  rw [readLiteral, h]

theorem readFactor_name (h : p.scope.contains x = true) :
    (p.await f).readFactor ⟨.id x, s⟩ = .ok (.var x s) := by
  show (nameChecked (p.scope.lookup ⟨x, s⟩) >>= fun _ => pure (Factor.var x s)) = _
  rw [lookup_ok h]
  rfl

theorem readFactor_number (h : Literal.ofDigits? d = some n) :
    p.readFactor ⟨.number d, s⟩ = .ok (.number n s) := by
  simp only [readFactor, readLiteral_ok h]
  rfl

theorem readOperand_name (h : p.scope.contains x = true) :
    (p.await f).readOperand ⟨.id x, s⟩ = .ok (.var x) := by
  show (nameChecked (p.scope.lookup ⟨x, s⟩) >>= fun _ => pure (Operand.var x)) = _
  rw [lookup_ok h]
  rfl

theorem readOperand_number (h : Literal.ofDigits? d = some n) :
    p.readOperand ⟨.number d, s⟩ = .ok (.number n) := by
  simp only [readOperand, readLiteral_ok h]
  rfl

theorem readBound_name (h : p.scope.contains x = true) :
    (p.await f).readBound ⟨.id x, s⟩ = .ok ⟨.var x, s⟩ := by
  show (nameChecked (p.scope.lookup ⟨x, s⟩) >>= fun _ => pure (⟨.var x, s⟩ : Located Bound)) = _
  rw [lookup_ok h]
  rfl

theorem readBound_number (h : Literal.ofDigits? d = some n) :
    p.readBound ⟨.number d, s⟩ = .ok ⟨.number n, s⟩ := by
  simp only [readBound, readLiteral_ok h]
  rfl

theorem readPrintArg_name (h : p.scope.contains x = true) :
    (p.await f).readPrintArg ⟨.id x, s⟩ = .ok ⟨.var x, s⟩ := by
  show (nameChecked (p.scope.lookup ⟨x, s⟩) >>=
    fun _ => pure (⟨.var x, s⟩ : Located PrintArg)) = _
  rw [lookup_ok h]
  rfl

theorem readTarget_name (h : p.scope.contains x = true) :
    p.readTarget ⟨.id x, s⟩ = .ok ⟨x, s⟩ := by
  simp only [readTarget, Scope.lookupTarget, h, if_true]
  rfl

end

/-! ## Expressions -/

/-- A state after a factor of the expression that `into` and `groups` belong to. -/
def AtChain (p : Progress) (into : Destination) (groups : List OpenGroup) (q : Progress) : Prop :=
  ∃ e, q = p.await (.chain into groups e)

/-- How the words of an expression are read. -/
def ReadsFactor (w : List Terminal) : Prop :=
  ∀ p into groups left, Reads (p.await (.factor into groups left)) w (AtChain p into groups)

def ReadsChain (w : List Terminal) : Prop :=
  ∀ p into groups e, Reads (p.await (.chain into groups e)) w (AtChain p into groups)

theorem readsFactor_number : ReadsFactor [.number] := by
  intro p into groups left
  refine Reads.number (fun n s => p.await (.chain into groups (.extend left (.number n s))))
    ?_ fun n s => .done ⟨_, rfl⟩
  intro d n s h
  simp only [step, focus_await, stepFactor, readFactor_number h]
  rfl

theorem readsFactor_name : ReadsFactor [.ident] := by
  intro p into groups left
  refine Reads.name .value rfl (fun x s => p.await (.chain into groups (.extend left (.var x s))))
    ?_ fun x s => .done ⟨_, rfl⟩
  intro x s h
  have hx := contains_of_await rfl h
  simp only [step, focus_await, stepFactor, readFactor_name hx]
  rfl

/-- `( w )`, where `w` is a factor and its chain. -/
theorem readsFactor_group {w : List Terminal} (hw : ReadsFactor w) :
    ReadsFactor (.mark .openParen :: (w ++ [.mark .closeParen])) := by
  intro p into groups left
  refine Reads.symbol .openParen rfl
    (fun s => p.await (.factor into (⟨left, s⟩ :: groups) none)) (fun _ => rfl) fun s => ?_
  apply (hw p into (⟨left, s⟩ :: groups) none).append
  rintro q ⟨e, rfl⟩
  exact Reads.symbol .closeParen rfl
    (fun s' => p.await (.chain into groups (.extend left (.group e (s.upTo s')))))
    (fun _ => rfl) fun _ => .done ⟨_, rfl⟩

theorem readsChain_more {w v : List Terminal} (op : Arithmetic) (hw : ReadsFactor w)
    (hv : ReadsChain v) : ReadsChain (.operator (.arithmetic op) :: (w ++ v)) := by
  intro p into groups e
  refine Reads.symbol (.arithmetic op) rfl
    (fun _ => p.await (.factor into groups (some (e, op)))) (fun _ => rfl) fun _ => ?_
  apply (hw p into groups _).append
  rintro q ⟨e', rfl⟩
  exact hv p into groups e'

theorem readsFactor_expr {w v : List Terminal} (hw : ReadsFactor w) (hv : ReadsChain v) :
    ReadsFactor (w ++ v) := by
  intro p into groups left
  apply (hw p into groups left).append
  rintro q ⟨e, rfl⟩
  exact hv p into groups e

/-! ## Conditions -/

/-- Where a condition that has been read to its closing parenthesis leads. -/
def closeCondition (p : Progress) (test : Test) (c : Condition) : List OpenCondition → Progress
  | [] => p.await (.blockOpen (test.opener c))
  | g :: outer => p.await (.condition test outer g.links (.group g.negated c))

theorem endCondition_eq (p : Progress) (test : Test) (groups : List OpenCondition)
    (links : List Link) (last : Condition) (f : Focus) (s : Span) :
    (p.await f).endCondition test groups links last ⟨.closeParen, s⟩ =
      .ok (p.closeCondition test (links.foldl Link.before last) groups) := by
  cases groups <;> rfl

/-- How the words of a condition and its closing parenthesis are read. -/
def ReadsCondition (w : List Terminal) : Prop :=
  ∀ (p : Progress) test groups links, Reads (p.await (.condition test groups links .term))
    (w ++ [.mark .closeParen]) fun q => ∃ c, q = p.closeCondition test c groups

/-- A name or a number. -/
def IsOperand (w : List Terminal) : Prop := w = [.ident] ∨ w = [.number]

/-- The state in which the operand of a term comes next. -/
def termFocus : Bool → ConditionFocus
  | true => .negated
  | false => .term

/-- After an optional `!` the reader knows the sign. -/
theorem reads_sign (p : Progress) (test : Test) (groups : List OpenCondition)
    (links : List Link) (n : Bool) {w : List Terminal} {Q : Progress → Prop}
    (h : Reads (p.await (.condition test groups links (termFocus n))) w Q) :
    Reads (p.await (.condition test groups links .term)) (sign n ++ w) Q := by
  cases n with
  | false => exact h
  | true =>
    exact Reads.symbol .not rfl (fun _ => p.await (.condition test groups links .negated))
      (fun _ => rfl) fun _ => h

theorem reads_operand (p : Progress) (test : Test) (groups : List OpenCondition)
    (links : List Link) (n : Bool) {w : List Terminal} (hw : IsOperand w) :
    Reads (p.await (.condition test groups links (termFocus n))) w
      fun q => ∃ x, q = p.await (.condition test groups links (.operand n x)) := by
  rcases hw with rfl | rfl
  · have huse : (Focus.condition test groups links (termFocus n)).use? = some .value := by
      cases n <;> rfl
    refine Reads.name .value huse
      (fun x _ => p.await (.condition test groups links (.operand n (.var x)))) ?_
      fun x s => .done ⟨_, rfl⟩
    intro x s h
    have hx := contains_of_await rfl h
    cases n <;>
      simp only [step, focus_await, termFocus, stepCondition, readOperand_name hx] <;> rfl
  · refine Reads.number
      (fun v _ => p.await (.condition test groups links (.operand n (.number v)))) ?_
      fun v s => .done ⟨_, rfl⟩
    intro d v s h
    cases n <;>
      simp only [step, focus_await, termFocus, stepCondition, readOperand_number h] <;> rfl

theorem reads_right (p : Progress) (test : Test) (groups : List OpenCondition)
    (links : List Link) (n : Bool) (x : Operand) (op : Comparison) {w : List Terminal}
    (hw : IsOperand w) :
    Reads (p.await (.condition test groups links (.right n x op))) w
      fun q => ∃ c, q = p.await (.condition test groups links (.whole c)) := by
  rcases hw with rfl | rfl
  · refine Reads.name .value rfl
      (fun y _ => p.await (.condition test groups links (.whole (.compare n x op (.var y))))) ?_
      fun y s => .done ⟨_, rfl⟩
    intro y s h
    have hy := contains_of_await rfl h
    simp only [step, focus_await, stepCondition, readOperand_name hy]
    rfl
  · refine Reads.number
      (fun v _ => p.await (.condition test groups links (.whole (.compare n x op (.number v)))))
      ?_ fun v s => .done ⟨_, rfl⟩
    intro d v s h
    simp only [step, focus_await, stepCondition, readOperand_number h]
    rfl

/-- `( w )` leads to a group, as far as it does not begin an operand. -/
theorem reads_openGroup (p : Progress) (test : Test) (groups : List OpenCondition)
    (links : List Link) (n : Bool) {w : List Terminal} (hw : ReadsCondition w) :
    Reads (p.await (.condition test groups links (termFocus n)))
      (.mark .openParen :: (w ++ [.mark .closeParen]))
      fun q => ∃ c, q = p.await (.condition test groups links (.group n c)) := by
  refine Reads.symbol .openParen rfl
    (fun _ => p.await (.condition test (⟨links, n⟩ :: groups) [] .term)) ?_ fun _ => ?_
  · intro s
    cases n <;> rfl
  · exact hw p test (⟨links, n⟩ :: groups) []

theorem readsCondition_simple {w : List Terminal} (n : Bool) (hw : IsOperand w) :
    ReadsCondition (sign n ++ w) := by
  intro p test groups links
  rw [List.append_assoc]
  apply reads_sign
  apply (reads_operand p test groups links n hw).append
  rintro q ⟨x, rfl⟩
  exact Reads.symbol .closeParen rfl _ (fun s => endCondition_eq p test groups links _ _ s)
    fun _ => .done ⟨_, rfl⟩

theorem readsCondition_compare {w v : List Terminal} (n : Bool) (op : Comparison)
    (hw : IsOperand w) (hv : IsOperand v) :
    ReadsCondition (sign n ++ (w ++ .operator (.comparison op) :: v)) := by
  intro p test groups links
  simp only [List.append_assoc, List.cons_append]
  apply reads_sign
  apply (reads_operand p test groups links n hw).append
  rintro q ⟨x, rfl⟩
  refine Reads.symbol (.comparison op) rfl
    (fun _ => p.await (.condition test groups links (.right n x op))) (fun _ => rfl) fun _ => ?_
  apply (reads_right p test groups links n x op hv).append
  rintro q ⟨c, rfl⟩
  exact Reads.symbol .closeParen rfl _ (fun s => endCondition_eq p test groups links _ _ s)
    fun _ => .done ⟨_, rfl⟩

theorem readsCondition_group {w : List Terminal} (n : Bool) (hw : ReadsCondition w) :
    ReadsCondition (sign n ++ .mark .openParen :: (w ++ [.mark .closeParen])) := by
  intro p test groups links
  rw [List.append_assoc]
  apply reads_sign
  apply (reads_openGroup p test groups links n hw).append
  rintro q ⟨c, rfl⟩
  exact Reads.symbol .closeParen rfl _ (fun s => endCondition_eq p test groups links _ _ s)
    fun _ => .done ⟨_, rfl⟩

theorem readsCondition_groupThen {w v : List Terminal} (n : Bool) (op : Comparison)
    (hw : ReadsCondition w) (hv : ReadsCondition v) :
    ReadsCondition (sign n ++ .mark .openParen ::
      (w ++ .mark .closeParen :: .operator (.comparison op) :: v)) := by
  intro p test groups links
  rw [List.append_assoc]
  apply reads_sign
  have hg := reads_openGroup p test groups links n hw
  have hrest : Reads (p.await (.condition test groups links (termFocus n)))
      ((.mark .openParen :: (w ++ [.mark .closeParen])) ++
        (.operator (.comparison op) :: (v ++ [.mark .closeParen])))
      fun q => ∃ c, q = p.closeCondition test c groups := by
    apply hg.append
    rintro q ⟨c, rfl⟩
    exact Reads.symbol (.comparison op) rfl
      (fun _ => p.await (.condition test groups (⟨n, c, op⟩ :: links) .term)) (fun _ => rfl)
      fun _ => hv p test groups (⟨n, c, op⟩ :: links)
  simpa using hrest

/-! ## Statements -/

/-- Between two statements, also when an `else` may follow. -/
def Ready (p : Progress) : Prop :=
  match p.focus with
  | .start | .statement | .afterThen .. => True
  | _ => False

/-- An `if` that no `else` follows is complete. -/
def settle (p : Progress) : Progress :=
  match p.focus with
  | .afterThen c body => p.complete (.ifThen c body)
  | _ => p

@[simp] theorem settle_frames (p : Progress) : p.settle.frames = p.frames := by
  unfold settle
  split <;> rfl

@[simp] theorem settle_scope (p : Progress) : p.settle.scope = p.scope := by
  unfold settle
  split <;> rfl

theorem Ready.afterLet {p : Progress} (h : p.Ready) : p.focus.afterLet = false := by
  unfold Ready at h
  split at h <;> simp_all [Focus.afterLet]

theorem Ready.use? {p : Progress} (h : p.Ready) : p.focus.use? = some .target := by
  unfold Ready at h
  split at h <;> simp_all [Focus.use?]

theorem Ready.step_eq {p : Progress} (h : p.Ready) (t : Located Token)
    (ht : t.val ≠ .keyword .else_) : p.step t = p.settle.stepStatement t := by
  unfold Ready at h
  unfold step settle
  split at h <;> rename_i hf
  · simp only [hf]
  · simp only [hf]
  · simp only [hf, if_neg ht]
  · exact h.elim

/-- Statements are read within the blocks they stand in. -/
def ReadsStatements (w : List Terminal) : Prop :=
  ∀ p : Progress, p.Ready → Reads p w fun q => q.Ready ∧ q.frames = p.frames

/-- What the end of a block leads to. -/
def AtBlockEnd (opener : Opener) (p q : Progress) : Prop :=
  q.frames = p.frames ∧ match opener with
    | .thenBlock c => ∃ body, q.focus = .afterThen c body
    | _ => q.focus = .statement

def ReadsBlock (w : List Terminal) : Prop :=
  ∀ (p : Progress) (opener : Opener), Reads (p.await (.blockOpen opener)) w (AtBlockEnd opener p)

theorem AtBlockEnd.ready {opener : Opener} {p q : Progress} (h : AtBlockEnd opener p q) :
    q.Ready := by
  obtain ⟨_, h⟩ := h
  unfold Ready
  cases opener with
  | thenBlock c =>
    obtain ⟨body, hq⟩ := h
    rw [hq]
    trivial
  | elseBlock c body => rw [show q.focus = .statement from h]; trivial
  | whileBlock c => rw [show q.focus = .statement from h]; trivial
  | timesBlock b => rw [show q.focus = .statement from h]; trivial

/-- A closing brace ends the innermost block. -/
theorem Ready.closeBlock {p q : Progress} {opener : Opener} (h : q.Ready)
    (hf : q.frames = ⟨opener, p.done⟩ :: p.frames) (s : Span) :
    ∃ r, q.step ⟨.closeCurly, s⟩ = .ok r ∧ AtBlockEnd opener p r := by
  rw [h.step_eq _ (by simp)]
  have hs : q.settle.frames = ⟨opener, p.done⟩ :: p.frames := by rw [settle_frames, hf]
  simp only [stepStatement, closeBlock?, hs]
  cases opener with
  | thenBlock c => exact ⟨_, rfl, rfl, _, rfl⟩
  | elseBlock c body => exact ⟨_, rfl, rfl, rfl⟩
  | whileBlock c => exact ⟨_, rfl, rfl, rfl⟩
  | timesBlock b => exact ⟨_, rfl, rfl, rfl⟩

theorem readsBlock {w : List Terminal} (hw : ReadsStatements w) :
    ReadsBlock (.mark .openCurly :: (w ++ [.mark .closeCurly])) := by
  intro p opener
  refine Reads.symbol .openCurly rfl (fun _ => (p.await (.blockOpen opener)).openBlock opener)
    (fun _ => rfl) fun _ => ?_
  apply (hw ((p.await (.blockOpen opener)).openBlock opener) trivial).append
  rintro q ⟨hq, hf⟩
  apply Reads.single (by simp) (by simp)
  rintro ⟨u, s⟩ hu _
  have hc : u = .closeCurly := by cases u <;> simp_all
  rw [hc]
  exact Or.inl (hq.closeBlock hf s)

/-- The keyword that begins a statement. -/
theorem Ready.reads_keyword {p : Progress} (hp : p.Ready) (k : Keyword) (f : Focus)
    (hk : k ≠ .else_) (h : ∀ (q : Progress) s, q.stepStatement ⟨.keyword k, s⟩ = .ok (q.await f))
    {w : List Terminal} {Q : Progress → Prop} (hw : Reads (p.settle.await f) w Q) :
    Reads p (.keyword k :: w) Q := by
  refine Reads.symbol (.keyword k) rfl (fun _ => p.settle.await f) (fun s => ?_) fun _ => hw
  rw [hp.step_eq _ (by simpa using hk)]
  exact h p.settle s

theorem reads_complete (p : Progress) (f : Focus) (s : Statement)
    (h : ∀ sp, (p.await f).step ⟨.semicolon, sp⟩ = .ok ((p.await f).complete s)) :
    Reads (p.await f) [.mark .semicolon] fun q => q.Ready ∧ q.frames = p.frames :=
  Reads.symbol .semicolon rfl (fun _ => (p.await f).complete s) h
    fun _ => .done ⟨trivial, rfl⟩

/-- The value of a declaration or an assignment and the semicolon behind it. -/
theorem reads_value {w : List Terminal} (hw : ReadsFactor w) (p : Progress)
    (into : Destination) :
    Reads (p.await (.factor into [] none)) (w ++ [.mark .semicolon])
      fun q => q.Ready ∧ q.frames = p.frames := by
  apply (hw p into [] none).append
  rintro q ⟨e, rfl⟩
  exact reads_complete p _ (into.statement e) fun _ => rfl

/-- The name after `let`, which is declared before anything else is read. -/
theorem reads_newName (p : Progress) {w : List Terminal} {Q : Progress → Prop}
    (h : ∀ (q : Progress) x, q.frames = p.frames → Reads (q.await (.newValue x)) w Q) :
    Reads (p.await .newName) (.ident :: w) Q := by
  refine Reads.name .declared rfl (fun x s =>
    ({ p with scope := ⟨x :: p.scope.declared⟩ } : Progress).await (.newValue ⟨x, s⟩)) ?_ ?_
  · intro x s hx
    have hc : p.scope.contains x = false := by
      by_cases hd : x ∈ p.scope.declared
      · simp [Focus.afterLet, Naming.step, hd] at hx
      · simpa [Scope.contains] using hd
    simp only [step, focus_await]
    show (nameChecked (p.scope.declare ⟨x, s⟩) >>= _) = _
    simp only [Scope.declare, hc, Bool.false_eq_true, if_false]
    rfl
  · intro x s
    exact h _ _ rfl

theorem readsStatement_declare :
    ReadsStatements [.keyword .let_, .ident, .mark .semicolon] := by
  intro p hp
  apply hp.reads_keyword .let_ .newName (by simp) fun _ _ => rfl
  apply reads_newName
  intro q x hq
  rw [← settle_frames p, ← hq]
  exact reads_complete q _ (.declare x none) fun _ => rfl

theorem readsStatement_declareValue {w : List Terminal} (hw : ReadsFactor w) :
    ReadsStatements (.keyword .let_ :: .ident :: .operator .assign ::
      (w ++ [.mark .semicolon])) := by
  intro p hp
  apply hp.reads_keyword .let_ .newName (by simp) fun _ _ => rfl
  apply reads_newName
  intro q x hq
  rw [← settle_frames p, ← hq]
  exact Reads.symbol .assign rfl (fun _ => q.await (.factor (.declared x) [] none))
    (fun _ => rfl) fun _ => reads_value hw q (.declared x)

theorem readsStatement_assign {w : List Terminal} (hw : ReadsFactor w) :
    ReadsStatements (.ident :: .operator .assign :: (w ++ [.mark .semicolon])) := by
  intro p hp
  refine Reads.name .target hp.use? (fun x s => p.settle.await (.assignSign ⟨x, s⟩)) ?_ fun x s => ?_
  · intro x s h
    have hx : p.settle.scope.contains x = true := by
      rw [settle_scope]
      exact contains_of_step hp.afterLet h
    rw [hp.step_eq _ (by simp), stepStatement]
    simp only [readTarget_name hx]
    rfl
  · rw [← settle_frames p]
    exact Reads.symbol .assign rfl
      (fun _ => p.settle.await (.factor (.assigned ⟨x, s⟩) [] none)) (fun _ => rfl)
      fun _ => reads_value hw p.settle (.assigned ⟨x, s⟩)

/-- `( condition )` after `if` or `while`, up to the block. -/
theorem reads_test (p : Progress) (test : Test) {w v : List Terminal} {Q : Progress → Prop}
    (hw : ReadsCondition w)
    (h : ∀ c, Reads (p.await (.blockOpen (test.opener c))) v Q) :
    Reads (p.await (.conditionOpen test)) (.mark .openParen :: (w ++ .mark .closeParen :: v))
      Q := by
  refine Reads.symbol .openParen rfl (fun _ => p.await (.condition test [] [] .term))
    (fun _ => rfl) fun _ => ?_
  rw [List.append_cons]
  apply (hw p test [] []).append
  rintro q ⟨c, rfl⟩
  exact h c

theorem readsStatement_ifThen {w b : List Terminal} (hw : ReadsCondition w)
    (hb : ReadsBlock b) :
    ReadsStatements (.keyword .if_ :: .mark .openParen :: (w ++ .mark .closeParen :: b)) := by
  intro p hp
  apply hp.reads_keyword .if_ (.conditionOpen .ifTest) (by simp) fun _ _ => rfl
  apply reads_test _ _ hw
  intro c
  apply (hb p.settle (.thenBlock c)).mono
  intro q hq
  exact ⟨hq.ready, by rw [hq.1, settle_frames]⟩

theorem readsStatement_ifElse {w b o : List Terminal} (hw : ReadsCondition w)
    (hb : ReadsBlock b) (ho : ReadsBlock o) :
    ReadsStatements (.keyword .if_ :: .mark .openParen ::
      (w ++ .mark .closeParen :: (b ++ .keyword .else_ :: o))) := by
  intro p hp
  apply hp.reads_keyword .if_ (.conditionOpen .ifTest) (by simp) fun _ _ => rfl
  apply reads_test _ _ hw
  intro c
  apply (hb p.settle (.thenBlock c)).append
  rintro q ⟨hf, body, hq⟩
  refine Reads.symbol (.keyword .else_) rfl (fun _ => q.await (.blockOpen (.elseBlock c body)))
    (fun _ => by simp [step, hq]) fun _ => ?_
  apply (ho q (.elseBlock c body)).mono
  intro r hr
  exact ⟨hr.ready, by rw [hr.1, hf, settle_frames]⟩

theorem readsStatement_whileDo {w b : List Terminal} (hw : ReadsCondition w)
    (hb : ReadsBlock b) :
    ReadsStatements (.keyword .while_ :: .mark .openParen :: (w ++ .mark .closeParen :: b)) := by
  intro p hp
  apply hp.reads_keyword .while_ (.conditionOpen .whileTest) (by simp) fun _ _ => rfl
  apply reads_test _ _ hw
  intro c
  apply (hb p.settle (.whileBlock c)).mono
  intro q hq
  exact ⟨hq.ready, by rw [hq.1, settle_frames]⟩

theorem reads_bound (p : Progress) {w : List Terminal} (hw : IsOperand w) :
    Reads (p.await .bound) w fun q => ∃ b, q = p.await (.boundClose b) := by
  rcases hw with rfl | rfl
  · refine Reads.name .value rfl (fun x s => p.await (.boundClose ⟨.var x, s⟩)) ?_
      fun x s => .done ⟨_, rfl⟩
    intro x s h
    simp only [step, focus_await, readBound_name (contains_of_await rfl h)]
    rfl
  · refine Reads.number (fun n s => p.await (.boundClose ⟨.number n, s⟩)) ?_
      fun n s => .done ⟨_, rfl⟩
    intro d n s h
    simp only [step, focus_await, readBound_number h]
    rfl

theorem readsStatement_dotimes {w b : List Terminal} (hw : IsOperand w) (hb : ReadsBlock b) :
    ReadsStatements (.keyword .dotimes :: .mark .openParen ::
      (w ++ .mark .closeParen :: b)) := by
  intro p hp
  apply hp.reads_keyword .dotimes .boundOpen (by simp) fun _ _ => rfl
  refine Reads.symbol .openParen rfl (fun _ => p.settle.await .bound) (fun _ => rfl) fun _ => ?_
  apply (reads_bound p.settle hw).append
  rintro q ⟨n, rfl⟩
  refine Reads.symbol .closeParen rfl (fun _ => p.settle.await (.blockOpen (.timesBlock n)))
    (fun _ => rfl) fun _ => ?_
  apply (hb p.settle (.timesBlock n)).mono
  intro q hq
  exact ⟨hq.ready, by rw [hq.1, settle_frames]⟩

/-- A text or a name. -/
def IsArgument (w : List Terminal) : Prop := w = [.text] ∨ w = [.ident]

theorem reads_argument (p : Progress) (f : Focus) (next : Located PrintArg → Focus)
    (hu : f.use? = some .value)
    (hstep : ∀ t a, (p.await f).readPrintArg t = .ok a →
      (p.await f).step t = .ok (p.await (next a)))
    {w : List Terminal} (hw : IsArgument w) :
    Reads (p.await f) w fun q => ∃ a, q = p.await (next a) := by
  rcases hw with rfl | rfl
  · exact Reads.text (fun x s => p.await (next ⟨.text x, s⟩)) (fun x s => hstep _ _ rfl)
      fun x s => .done ⟨_, rfl⟩
  · have hf : f.afterLet = false := by cases f <;> first | rfl | cases hu
    refine Reads.name .value hu (fun x s => p.await (next ⟨.var x, s⟩)) ?_ fun x s => .done ⟨_, rfl⟩
    intro x s h
    exact hstep _ _ (readPrintArg_name (contains_of_await hf h))

/-- Further arguments, each behind a comma. -/
def ReadsArguments (w : List Terminal) : Prop :=
  ∀ (p : Progress) first more, Reads (p.await (.printNext first more)) w
    fun q => ∃ more', q = p.await (.printNext first more')

theorem readsArguments_more {w v : List Terminal} (hw : IsArgument w) (hv : ReadsArguments v) :
    ReadsArguments (.mark .comma :: (w ++ v)) := by
  intro p first more
  refine Reads.symbol .comma rfl (fun _ => p.await (.printMore first more)) (fun _ => rfl)
    fun _ => ?_
  have ha := reads_argument p (.printMore first more) (fun a => .printNext first (a :: more))
    rfl (fun t a h => by simp only [step, focus_await, h]; rfl) hw
  apply ha.append
  rintro q ⟨a, rfl⟩
  exact hv p first (a :: more)

theorem readsStatement_print {w v : List Terminal} (hw : IsArgument w)
    (hv : ReadsArguments v) :
    ReadsStatements (.keyword .print :: .mark .openParen ::
      (w ++ (v ++ [.mark .closeParen, .mark .semicolon]))) := by
  intro p hp
  apply hp.reads_keyword .print .printOpen (by simp) fun _ _ => rfl
  refine Reads.symbol .openParen rfl (fun _ => p.settle.await .printFirst) (fun _ => rfl)
    fun _ => ?_
  have ha := reads_argument p.settle .printFirst (fun a => .printNext a [])
    rfl (fun t a h => by simp only [step, focus_await, h]; rfl) hw
  apply ha.append
  rintro q ⟨a, rfl⟩
  apply (hv p.settle a []).append
  rintro q ⟨more, rfl⟩
  refine Reads.symbol .closeParen rfl (fun _ => p.settle.await (.printEnd a more))
    (fun _ => rfl) fun _ => ?_
  rw [← settle_frames p]
  exact reads_complete p.settle _ (.print a more.reverse) fun _ => rfl

theorem readsStatement_read :
    ReadsStatements [.keyword .read, .mark .openParen, .ident, .mark .closeParen,
      .mark .semicolon] := by
  intro p hp
  apply hp.reads_keyword .read .readOpen (by simp) fun _ _ => rfl
  refine Reads.symbol .openParen rfl (fun _ => p.settle.await .readTarget) (fun _ => rfl)
    fun _ => ?_
  refine Reads.name .target rfl (fun x s => p.settle.await (.readClose ⟨x, s⟩)) ?_ fun x s => ?_
  · intro x s h
    have hx : (p.settle.await .readTarget).scope.contains x = true := contains_of_step rfl h
    simp only [step, focus_await, readTarget_name hx]
    rfl
  · refine Reads.symbol .closeParen rfl (fun _ => p.settle.await (.readEnd ⟨x, s⟩))
      (fun _ => rfl) fun _ => ?_
    rw [← settle_frames p]
    exact reads_complete p.settle _ (.read ⟨x, s⟩) fun _ => rfl

theorem readsStatements_append {w v : List Terminal} (hw : ReadsStatements w)
    (hv : ReadsStatements v) : ReadsStatements (w ++ v) := by
  intro p hp
  apply (hw p hp).append
  rintro q ⟨hq, hf⟩
  rw [← hf]
  exact hv q hq

/-! ## Sentences are read -/

/-- How the reader takes the words of a phrase. -/
def Readable : Phrase → List Terminal → Prop
  | .factor => ReadsFactor
  | .chain => ReadsChain
  | .expr => ReadsFactor
  | .operand => IsOperand
  | .condition => ReadsCondition
  | .argument => IsArgument
  | .arguments => ReadsArguments
  | .block => ReadsBlock
  | .statement => ReadsStatements
  | .statements => ReadsStatements
  | .program => fun w => ∃ v, w = v ++ [.eof] ∧ ReadsStatements v

/-- One case for each production. -/
theorem readable_of_derives {phrase : Phrase} {w : List Terminal} (h : Derives phrase w) :
    Readable phrase w := by
  induction h with
  | number => exact readsFactor_number
  | name => exact readsFactor_name
  | group _ ih => exact readsFactor_group ih
  | chainEnd => exact fun p into groups e => .done ⟨e, rfl⟩
  | chainMore op _ _ ihf ihc => exact readsChain_more op ihf ihc
  | expr _ _ ihf ihc => exact readsFactor_expr ihf ihc
  | operandNumber => exact Or.inr rfl
  | operandName => exact Or.inl rfl
  | simple n _ ih => exact readsCondition_simple n ih
  | compare n op _ _ ihl ihr => exact readsCondition_compare n op ihl ihr
  | grouped n _ ih => exact readsCondition_group n ih
  | groupedThen n op _ _ ihg ihr => exact readsCondition_groupThen n op ihg ihr
  | argumentText => exact Or.inl rfl
  | argumentName => exact Or.inr rfl
  | argumentsEnd => exact fun p first more => .done ⟨more, rfl⟩
  | argumentsMore _ _ iha ihm => exact readsArguments_more iha ihm
  | block _ ih => exact readsBlock ih
  | declare => exact readsStatement_declare
  | declareValue _ ih => exact readsStatement_declareValue ih
  | assign _ ih => exact readsStatement_assign ih
  | ifThen _ _ ihc ihb => exact readsStatement_ifThen ihc ihb
  | ifElse _ _ _ ihc ihb iho => exact readsStatement_ifElse ihc ihb iho
  | whileDo _ _ ihc ihb => exact readsStatement_whileDo ihc ihb
  | dotimes _ _ ihn ihb => exact readsStatement_dotimes ihn ihb
  | print _ _ iha ihm => exact readsStatement_print iha ihm
  | read => exact readsStatement_read
  | noStatements => exact fun p hp => .done ⟨hp, rfl⟩
  | moreStatements _ _ ihs ihr => exact readsStatements_append ihs ihr
  | program _ ih => exact ⟨_, rfl, ih⟩

/-- A state is complete when all blocks are closed and the next token may begin
a statement. -/
theorem Ready.step_eof {p : Progress} (h : p.Ready) (hf : p.frames = []) {e : Located Token}
    (he : e.val = .eof) : p.step e = .ok p.settle := by
  obtain ⟨_, s⟩ := e
  cases he
  rw [h.step_eq _ (by simp)]
  simp [stepStatement, hf]

end Progress

end BareBones
