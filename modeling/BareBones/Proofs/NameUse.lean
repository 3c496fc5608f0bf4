import BareBones.Proofs.Spelling

/-!
What names are for. Every state of the reader that takes a name takes it as a new
one, as one that is given a value, or as one whose value is used (`Focus.use?`). A
name is refused by the rules on names in exactly these states, and the error says
which of the three it was (`Progress.step_eq_name_error`, `Progress.step_name_refused`).
-/

namespace BareBones

/-- What a name is for. -/
inductive NameUse where
  | declared
  | target
  | value
deriving DecidableEq

/-- What is wrong with a name of this use that must not stand where it does. -/
def NameUse.error (x : String) : NameUse → NameError
  | declared => .redefinition x
  | target => .undefinedTarget x
  | value => .undefined x

/-- What a name is for if it comes next in a condition. -/
def ConditionFocus.use? : ConditionFocus → Option NameUse
  | term | negated | right .. => some .value
  | operand .. | whole _ | group .. => none

/-- What a name is for if it comes next. -/
def Focus.use? : Focus → Option NameUse
  | newName => some .declared
  | start | statement | afterThen .. | readTarget => some .target
  | factor .. | bound | printFirst | printMore .. => some .value
  | condition _ _ _ focus => focus.use?
  | _ => none

theorem Focus.afterLet_iff (f : Focus) : f.afterLet = true ↔ f.use? = some .declared := by
  cases f with
  | condition test groups links focus => cases focus <;> simp [afterLet, use?, ConditionFocus.use?]
  | _ => simp [afterLet, use?]

/-- The rules refuse a name that is declared behind a `let`, or not declared elsewhere. -/
theorem Progress.naming_step_eq_none_iff (p : Progress) (x : String) :
    p.naming.step (.id x) = none ↔ p.scope.contains x = p.focus.afterLet := by
  rw [naming, Naming.step]
  cases p.focus.afterLet <;> by_cases hx : x ∈ p.scope.declared <;> simp [Scope.contains, hx]

/-! ## Faults with names -/

/-- If the fault is one with a name, then `t` is a name that is not declared, and `use`
says what it is for. -/
def Undeclared {α : Type} (scope : Scope) (t : Located Token) (use : NameUse) (r : Reading α) :
    Prop :=
  ∀ n s, r = .error ⟨.name n, s⟩ →
    ∃ x, t.val = .id x ∧ n = use.error x ∧ scope.contains x = false

/-- The fault is not one with a name. -/
def Nameless {α : Type} (r : Reading α) : Prop := ∀ n s, r ≠ .error ⟨.name n, s⟩

theorem Nameless.ok {α : Type} (a : α) : Nameless (.ok a) := by
  intro n s h
  cases h

theorem Nameless.bind {α β : Type} {r : Reading α} {f : α → Reading β} (hr : Nameless r)
    (hf : ∀ a, Nameless (f a)) : Nameless (r >>= f) := by
  cases r with
  | ok a => exact hf a
  | error e =>
    intro n s h
    exact hr n s (by cases h; rfl)

theorem refuse_nameless {α : Type} (wanted : Expectation) (t : Located Token) :
    Nameless (refuse wanted t : Reading α) := by
  intro n s h
  unfold refuse at h
  split at h <;> cases h

theorem expect_nameless (wanted : Token) (t : Located Token) (p : Progress) :
    Nameless (expect wanted t p) := by
  unfold expect
  split
  · exact .ok p
  · exact refuse_nameless _ t

theorem readLiteral_nameless (digits : String) (s : Span) : Nameless (readLiteral digits s) := by
  intro n s' h
  unfold readLiteral at h
  split at h <;> cases h

namespace Undeclared

variable {α β : Type} {scope : Scope} {t : Located Token} {use : NameUse}

theorem of_nameless {r : Reading α} (h : Nameless r) : Undeclared scope t use r :=
  fun n s hr => absurd hr (h n s)

theorem bind {r : Reading α} {f : α → Reading β} (hr : Undeclared scope t use r)
    (hf : ∀ a, Nameless (f a)) : Undeclared scope t use (r >>= f) := by
  cases r with
  | ok a => exact of_nameless (hf a)
  | error e =>
    intro n s h
    exact hr n s (by cases h; rfl)

theorem lookup {x : String} (ht : t.val = .id x) (s : Span) :
    Undeclared scope t .value (nameChecked (scope.lookup ⟨x, s⟩)) := by
  intro n s' h
  unfold Scope.lookup at h
  split at h
  · cases h
  · rename_i hx
    cases h
    exact ⟨x, ht, rfl, by simpa using hx⟩

theorem lookupTarget {x : String} (ht : t.val = .id x) (s : Span) :
    Undeclared scope t .target (nameChecked (scope.lookupTarget ⟨x, s⟩)) := by
  intro n s' h
  unfold Scope.lookupTarget at h
  split at h
  · cases h
  · rename_i hx
    cases h
    exact ⟨x, ht, rfl, by simpa using hx⟩

end Undeclared

namespace Progress

theorem readFactor_undeclared (p : Progress) (t : Located Token) :
    Undeclared p.scope t .value (p.readFactor t) := by
  unfold readFactor
  split
  · exact .of_nameless (.bind (readLiteral_nameless _ _) fun _ => .ok _)
  · rename_i ht
    exact .bind (.lookup ht _) fun _ => .ok _
  · exact .of_nameless (refuse_nameless _ t)

theorem readOperand_undeclared (p : Progress) (t : Located Token) :
    Undeclared p.scope t .value (p.readOperand t) := by
  unfold readOperand
  split
  · exact .of_nameless (.bind (readLiteral_nameless _ _) fun _ => .ok _)
  · rename_i ht
    exact .bind (.lookup ht _) fun _ => .ok _
  · exact .of_nameless (refuse_nameless _ t)

theorem readBound_undeclared (p : Progress) (t : Located Token) :
    Undeclared p.scope t .value (p.readBound t) := by
  unfold readBound
  split
  · exact .of_nameless (.bind (readLiteral_nameless _ _) fun _ => .ok _)
  · rename_i ht
    exact .bind (.lookup ht _) fun _ => .ok _
  · exact .of_nameless (refuse_nameless _ t)

theorem readPrintArg_undeclared (p : Progress) (t : Located Token) :
    Undeclared p.scope t .value (p.readPrintArg t) := by
  unfold readPrintArg
  split
  · exact .of_nameless (.ok _)
  · rename_i ht
    exact .bind (.lookup ht _) fun _ => .ok _
  · exact .of_nameless (refuse_nameless _ t)

theorem readTarget_undeclared (p : Progress) (t : Located Token) :
    Undeclared p.scope t .target (p.readTarget t) := by
  unfold readTarget
  split
  · rename_i ht
    exact .bind (.lookupTarget ht _) fun _ => .ok _
  · exact .of_nameless (refuse_nameless _ t)

theorem stepStatement_undeclared (p : Progress) (t : Located Token) :
    Undeclared p.scope t .target (p.stepStatement t) := by
  unfold stepStatement
  split
  iterate 6 exact .of_nameless (.ok _)
  · exact .bind (p.readTarget_undeclared t) fun _ => .ok _
  · split
    · exact .of_nameless (.ok _)
    · exact .of_nameless (refuse_nameless _ t)
  · split
    · exact .of_nameless (.ok _)
    · exact .of_nameless (refuse_nameless _ t)
  · exact .of_nameless (refuse_nameless _ t)

theorem stepFactor_undeclared (p : Progress) (into : Destination) (groups : List OpenGroup)
    (left : Option (Expr × Arithmetic)) (t : Located Token) :
    Undeclared p.scope t .value (p.stepFactor into groups left t) := by
  unfold stepFactor
  split
  · exact .of_nameless (.ok _)
  · exact .bind (p.readFactor_undeclared t) fun _ => .ok _

theorem stepChain_nameless (p : Progress) (into : Destination) (groups : List OpenGroup)
    (value : Expr) (t : Located Token) : Nameless (p.stepChain into groups value t) := by
  unfold stepChain
  split
  · exact .ok _
  · exact expect_nameless _ t _
  · exact expect_nameless _ t _

theorem endCondition_nameless (p : Progress) (test : Test) (groups : List OpenCondition)
    (links : List Link) (last : Condition) (t : Located Token) :
    Nameless (p.endCondition test groups links last t) := by
  unfold endCondition
  dsimp only
  split <;> exact expect_nameless _ t _

/-- A name in a condition is refused where an operand comes next. -/
theorem stepCondition_undeclared (p : Progress) (test : Test) (groups : List OpenCondition)
    (links : List Link) (focus : ConditionFocus) (t : Located Token) :
    (∃ use, focus.use? = some use ∧
      Undeclared p.scope t use (p.stepCondition test groups links focus t)) ∨
    Nameless (p.stepCondition test groups links focus t) := by
  unfold stepCondition
  split
  · exact Or.inr (.ok _)
  · exact Or.inr (.ok _)
  · exact Or.inl ⟨.value, rfl, .bind (p.readOperand_undeclared t) fun _ => .ok _⟩
  · exact Or.inr (.ok _)
  · exact Or.inl ⟨.value, rfl, .bind (p.readOperand_undeclared t) fun _ => .ok _⟩
  · exact Or.inr (.ok _)
  · exact Or.inr (p.endCondition_nameless _ _ _ _ t)
  · exact Or.inl ⟨.value, rfl, .bind (p.readOperand_undeclared t) fun _ => .ok _⟩
  · exact Or.inr (p.endCondition_nameless _ _ _ _ t)
  · exact Or.inr (.ok _)
  · exact Or.inr (p.endCondition_nameless _ _ _ _ t)

/-- Behind a `let` the name must be a new one. -/
theorem newName_eq_name_error {p : Progress} {t : Located Token} {n : NameError} {s : Span}
    (hf : p.focus = .newName) (h : p.step t = .error ⟨.name n, s⟩) :
    ∃ x, t.val = .id x ∧ n = .redefinition x ∧ p.scope.contains x = true := by
  simp only [step, hf] at h
  split at h
  · rename_i x ht
    by_cases hx : p.scope.contains x = true
    · simp only [Scope.declare, hx, if_true] at h
      cases h
      exact ⟨x, ht, rfl, hx⟩
    · simp only [Scope.declare, hx] at h
      cases h
  · exact absurd h (refuse_nameless _ t n s)

/-- Anywhere else a fault with a name is one with a name that is not declared. -/
theorem step_undeclared (p : Progress) (t : Located Token) :
    p.focus = .newName ∨ Nameless (p.step t) ∨
      ∃ use, p.focus.use? = some use ∧ use ≠ .declared ∧ Undeclared p.scope t use (p.step t) := by
  unfold step
  split <;> rename_i hf
  · exact Or.inr (Or.inr ⟨.target, by rw [hf]; rfl, by simp, p.stepStatement_undeclared t⟩)
  · exact Or.inr (Or.inr ⟨.target, by rw [hf]; rfl, by simp, p.stepStatement_undeclared t⟩)
  · refine Or.inr (Or.inr ⟨.target, by rw [hf]; rfl, by simp, ?_⟩)
    split
    · exact .of_nameless (.ok _)
    · exact stepStatement_undeclared (p.complete _) t
  · exact Or.inl hf
  · refine Or.inr (Or.inl ?_)
    split
    · exact .ok _
    · exact expect_nameless _ t _
  · exact Or.inr (Or.inl (expect_nameless _ t _))
  · exact Or.inr (Or.inr ⟨.value, by rw [hf]; rfl, by simp, p.stepFactor_undeclared _ _ _ t⟩)
  · exact Or.inr (Or.inl (p.stepChain_nameless _ _ _ t))
  · exact Or.inr (Or.inl (expect_nameless _ t _))
  · rename_i test groups links focus
    rcases p.stepCondition_undeclared test groups links focus t with ⟨use, huse, h⟩ | h
    · refine Or.inr (Or.inr ⟨use, by rw [hf]; exact huse, ?_, h⟩)
      rintro rfl
      cases focus <;> cases huse
    · exact Or.inr (Or.inl h)
  · exact Or.inr (Or.inl (expect_nameless _ t _))
  · exact Or.inr (Or.inl (expect_nameless _ t _))
  · exact Or.inr (Or.inr ⟨.value, by rw [hf]; rfl, by simp,
      .bind (p.readBound_undeclared t) fun _ => .ok _⟩)
  · exact Or.inr (Or.inl (expect_nameless _ t _))
  · exact Or.inr (Or.inl (expect_nameless _ t _))
  · exact Or.inr (Or.inr ⟨.value, by rw [hf]; rfl, by simp,
      .bind (p.readPrintArg_undeclared t) fun _ => .ok _⟩)
  · exact Or.inr (Or.inr ⟨.value, by rw [hf]; rfl, by simp,
      .bind (p.readPrintArg_undeclared t) fun _ => .ok _⟩)
  · refine Or.inr (Or.inl ?_)
    split
    · exact .ok _
    · exact expect_nameless _ t _
  · exact Or.inr (Or.inl (expect_nameless _ t _))
  · exact Or.inr (Or.inl (expect_nameless _ t _))
  · exact Or.inr (Or.inr ⟨.target, by rw [hf]; rfl, by simp,
      .bind (p.readTarget_undeclared t) fun _ => .ok _⟩)
  · exact Or.inr (Or.inl (expect_nameless _ t _))
  · exact Or.inr (Or.inl (expect_nameless _ t _))

/-- Only a name is refused as a name: one that is declared again, or one that is not
declared in its other uses. -/
theorem step_eq_name_error {p : Progress} {t : Located Token} {n : NameError} {s : Span}
    (h : p.step t = .error ⟨.name n, s⟩) :
    ∃ x use, t.val = .id x ∧ p.focus.use? = some use ∧ n = use.error x ∧
      (use = .declared ↔ p.scope.contains x = true) := by
  rcases p.step_undeclared t with hf | hn | ⟨use, huse, hne, hu⟩
  · obtain ⟨x, ht, hn, hx⟩ := newName_eq_name_error hf h
    exact ⟨x, .declared, ht, by rw [hf]; rfl, hn, by simp [hx]⟩
  · exact absurd h (hn n s)
  · obtain ⟨x, ht, hn, hx⟩ := hu n s h
    exact ⟨x, use, ht, huse, hn, by simp [hne, hx]⟩

/-- A fault with a name is one that the rules on names find too. -/
theorem naming_step_of_name_error {p : Progress} {t : Located Token} {n : NameError} {s : Span}
    (h : p.step t = .error ⟨.name n, s⟩) : p.naming.step t.val = none := by
  obtain ⟨x, use, ht, huse, -, hx⟩ := step_eq_name_error h
  have hl : p.focus.afterLet = true ↔ p.scope.contains x = true := by
    rw [Focus.afterLet_iff, huse, Option.some.injEq, hx]
  rw [ht, naming_step_eq_none_iff, Bool.eq_iff_iff, hl]

/-! ## Names that are refused -/

theorem lookup_error {scope : Scope} {x : String} (h : scope.contains x = false) (s : Span) :
    nameChecked (scope.lookup ⟨x, s⟩) = .error ⟨.name (.undefined x), s⟩ := by
  simp [Scope.lookup, h, nameChecked, Located.map]

theorem lookupTarget_error {scope : Scope} {x : String} (h : scope.contains x = false)
    (s : Span) :
    nameChecked (scope.lookupTarget ⟨x, s⟩) = .error ⟨.name (.undefinedTarget x), s⟩ := by
  simp [Scope.lookupTarget, h, nameChecked, Located.map]

theorem declare_error {scope : Scope} {x : String} (h : scope.contains x = true) (s : Span) :
    nameChecked (scope.declare ⟨x, s⟩) = .error ⟨.name (.redefinition x), s⟩ := by
  simp [Scope.declare, h, nameChecked, Located.map]

theorem readTarget_error {p : Progress} {x : String} (h : p.scope.contains x = false)
    (s : Span) : p.readTarget ⟨.id x, s⟩ = .error ⟨.name (.undefinedTarget x), s⟩ := by
  simp only [readTarget, lookupTarget_error h]
  rfl

theorem readPrintArg_error {p : Progress} {x : String} (h : p.scope.contains x = false)
    (s : Span) : p.readPrintArg ⟨.id x, s⟩ = .error ⟨.name (.undefined x), s⟩ := by
  simp only [readPrintArg, lookup_error h]
  rfl

theorem readOperand_error {p : Progress} {x : String} (h : p.scope.contains x = false)
    (s : Span) : p.readOperand ⟨.id x, s⟩ = .error ⟨.name (.undefined x), s⟩ := by
  simp only [readOperand, lookup_error h]
  rfl

theorem stepStatement_error {p : Progress} {x : String} (h : p.scope.contains x = false)
    (s : Span) : p.stepStatement ⟨.id x, s⟩ = .error ⟨.name (.undefinedTarget x), s⟩ := by
  simp only [stepStatement, readTarget_error h]
  rfl

theorem stepCondition_error {p : Progress} {focus : ConditionFocus} {use : NameUse} {x : String}
    (hu : focus.use? = some use) (h : p.scope.contains x = false) (test : Test)
    (groups : List OpenCondition) (links : List Link) (s : Span) :
    p.stepCondition test groups links focus ⟨.id x, s⟩ = .error ⟨.name (use.error x), s⟩ := by
  cases focus <;> cases hu <;> simp only [stepCondition, readOperand_error h] <;> rfl

/-- Where a name may come, one that breaks the rules is refused as a name. -/
theorem step_name_refused {p : Progress} {use : NameUse} {x : String} (s : Span)
    (hu : p.focus.use? = some use) (hx : p.naming.step (.id x) = none) :
    p.step ⟨.id x, s⟩ = .error ⟨.name (use.error x), s⟩ := by
  have hc := (p.naming_step_eq_none_iff x).mp hx
  unfold step
  cases hf : p.focus with
  | start | statement =>
    rw [hf] at hu hc
    cases hu
    exact stepStatement_error hc s
  | afterThen c body =>
    rw [hf] at hu hc
    cases hu
    exact stepStatement_error (p := p.complete (.ifThen c body)) hc s
  | newName =>
    rw [hf] at hu hc
    cases hu
    simp only [declare_error hc]
    rfl
  | factor into groups left =>
    rw [hf] at hu hc
    cases hu
    simp only [stepFactor, readFactor, lookup_error hc]
    rfl
  | condition test groups links focus =>
    rw [hf] at hu hc
    exact stepCondition_error hu hc test groups links s
  | bound =>
    rw [hf] at hu hc
    cases hu
    simp only [readBound, lookup_error hc]
    rfl
  | printFirst | printMore first more =>
    rw [hf] at hu hc
    cases hu
    simp only [readPrintArg_error hc]
    rfl
  | readTarget =>
    rw [hf] at hu hc
    cases hu
    simp only [readTarget_error hc]
    rfl
  | _ =>
    rw [hf] at hu
    cases hu

end Progress

end BareBones
