import BareBones.Syntax.Step

/-!
Where faults are found. A step can only complain about the token it is given:
neither a name, nor a number, nor a missing symbol is blamed on another place.
-/

namespace BareBones

/-- A fault, if there is one, lies at `s`. -/
def FaultAt {α : Type} (s : Span) (r : Reading α) : Prop := ∀ e, r = .error e → e.span = s

namespace FaultAt

theorem ok {α : Type} (s : Span) (a : α) : FaultAt s (.ok a) := by
  intro e h
  cases h

theorem error {α : Type} (e : Located ParseError) :
    FaultAt e.span (.error e : Reading α) := by
  intro e' h
  cases h
  rfl

theorem bind {α β : Type} {s : Span} {r : Reading α} {f : α → Reading β}
    (hr : FaultAt s r) (hf : ∀ a, FaultAt s (f a)) : FaultAt s (r >>= f) := by
  cases r with
  | ok a => exact hf a
  | error e =>
    intro e' h
    cases h
    exact hr e rfl

end FaultAt

theorem refuse_faultAt {α : Type} (wanted : Expectation) (t : Located Token) :
    FaultAt t.span (refuse wanted t : Reading α) := by
  unfold refuse
  split <;> exact FaultAt.error _

theorem expect_faultAt (wanted : Token) (t : Located Token) (p : Progress) :
    FaultAt t.span (expect wanted t p) := by
  unfold expect
  split
  · exact FaultAt.ok _ _
  · exact refuse_faultAt _ t

theorem readLiteral_faultAt (digits : String) (s : Span) :
    FaultAt s (readLiteral digits s) := by
  unfold readLiteral
  split
  · exact FaultAt.ok _ _
  · exact FaultAt.error _

theorem lookup_faultAt (scope : Scope) (x : Located String) :
    FaultAt x.span (nameChecked (scope.lookup x)) := by
  unfold Scope.lookup
  split
  · exact FaultAt.ok _ _
  · exact FaultAt.error _

theorem lookupTarget_faultAt (scope : Scope) (x : Located String) :
    FaultAt x.span (nameChecked (scope.lookupTarget x)) := by
  unfold Scope.lookupTarget
  split
  · exact FaultAt.ok _ _
  · exact FaultAt.error _

theorem declare_faultAt (scope : Scope) (x : Located String) :
    FaultAt x.span (nameChecked (scope.declare x)) := by
  unfold Scope.declare
  split
  · exact FaultAt.error _
  · exact FaultAt.ok _ _

namespace Progress

theorem readFactor_faultAt (p : Progress) (t : Located Token) :
    FaultAt t.span (p.readFactor t) := by
  unfold readFactor
  split
  · exact .bind (readLiteral_faultAt _ _) fun _ => .ok _ _
  · exact .bind (lookup_faultAt _ ⟨_, t.span⟩) fun _ => .ok _ _
  · exact refuse_faultAt _ t

theorem readOperand_faultAt (p : Progress) (t : Located Token) :
    FaultAt t.span (p.readOperand t) := by
  unfold readOperand
  split
  · exact .bind (readLiteral_faultAt _ _) fun _ => .ok _ _
  · exact .bind (lookup_faultAt _ ⟨_, t.span⟩) fun _ => .ok _ _
  · exact refuse_faultAt _ t

theorem readBound_faultAt (p : Progress) (t : Located Token) :
    FaultAt t.span (p.readBound t) := by
  unfold readBound
  split
  · exact .bind (readLiteral_faultAt _ _) fun _ => .ok _ _
  · exact .bind (lookup_faultAt _ ⟨_, t.span⟩) fun _ => .ok _ _
  · exact refuse_faultAt _ t

theorem readPrintArg_faultAt (p : Progress) (t : Located Token) :
    FaultAt t.span (p.readPrintArg t) := by
  unfold readPrintArg
  split
  · exact .ok _ _
  · exact .bind (lookup_faultAt _ ⟨_, t.span⟩) fun _ => .ok _ _
  · exact refuse_faultAt _ t

theorem readTarget_faultAt (p : Progress) (t : Located Token) :
    FaultAt t.span (p.readTarget t) := by
  unfold readTarget
  split
  · exact .bind (lookupTarget_faultAt _ ⟨_, t.span⟩) fun _ => .ok _ _
  · exact refuse_faultAt _ t

theorem stepStatement_faultAt (p : Progress) (t : Located Token) :
    FaultAt t.span (p.stepStatement t) := by
  unfold stepStatement
  split
  iterate 6 exact .ok _ _
  · exact .bind (p.readTarget_faultAt t) fun _ => .ok _ _
  · split
    · exact .ok _ _
    · exact refuse_faultAt _ t
  · split
    · exact .ok _ _
    · exact refuse_faultAt _ t
  · exact refuse_faultAt _ t

theorem stepFactor_faultAt (p : Progress) (into : Destination) (groups : List OpenGroup)
    (left : Option (Expr × Arithmetic)) (t : Located Token) :
    FaultAt t.span (p.stepFactor into groups left t) := by
  unfold stepFactor
  split
  · exact .ok _ _
  · exact .bind (p.readFactor_faultAt t) fun _ => .ok _ _

theorem stepChain_faultAt (p : Progress) (into : Destination) (groups : List OpenGroup)
    (value : Expr) (t : Located Token) : FaultAt t.span (p.stepChain into groups value t) := by
  unfold stepChain
  split
  · exact .ok _ _
  · exact expect_faultAt _ t _
  · exact expect_faultAt _ t _

theorem endCondition_faultAt (p : Progress) (test : Test) (groups : List OpenCondition)
    (links : List Link) (last : Condition) (t : Located Token) :
    FaultAt t.span (p.endCondition test groups links last t) := by
  unfold endCondition
  dsimp only
  split <;> exact expect_faultAt _ t _

theorem stepCondition_faultAt (p : Progress) (test : Test) (groups : List OpenCondition)
    (links : List Link) (focus : ConditionFocus) (t : Located Token) :
    FaultAt t.span (p.stepCondition test groups links focus t) := by
  unfold stepCondition
  split
  · exact .ok _ _
  · exact .ok _ _
  · exact .bind (p.readOperand_faultAt t) fun _ => .ok _ _
  · exact .ok _ _
  · exact .bind (p.readOperand_faultAt t) fun _ => .ok _ _
  · exact .ok _ _
  · exact p.endCondition_faultAt _ _ _ _ t
  · exact .bind (p.readOperand_faultAt t) fun _ => .ok _ _
  · exact p.endCondition_faultAt _ _ _ _ t
  · exact .ok _ _
  · exact p.endCondition_faultAt _ _ _ _ t

/-- Whatever is wrong is wrong with the token that was read. -/
theorem step_faultAt (p : Progress) (t : Located Token) : FaultAt t.span (p.step t) := by
  unfold step
  split
  · exact p.stepStatement_faultAt t
  · exact p.stepStatement_faultAt t
  · split
    · exact .ok _ _
    · exact stepStatement_faultAt _ t
  · split
    · exact .bind (declare_faultAt _ ⟨_, t.span⟩) fun _ => .ok _ _
    · exact refuse_faultAt _ t
  · split
    · exact .ok _ _
    · exact expect_faultAt _ t _
  · exact expect_faultAt _ t _
  · exact p.stepFactor_faultAt _ _ _ t
  · exact p.stepChain_faultAt _ _ _ t
  · exact expect_faultAt _ t _
  · exact p.stepCondition_faultAt _ _ _ _ t
  · exact expect_faultAt _ t _
  · exact expect_faultAt _ t _
  · exact .bind (p.readBound_faultAt t) fun _ => .ok _ _
  · exact expect_faultAt _ t _
  · exact expect_faultAt _ t _
  · exact .bind (p.readPrintArg_faultAt t) fun _ => .ok _ _
  · exact .bind (p.readPrintArg_faultAt t) fun _ => .ok _ _
  · split
    · exact .ok _ _
    · exact expect_faultAt _ t _
  · exact expect_faultAt _ t _
  · exact expect_faultAt _ t _
  · exact .bind (p.readTarget_faultAt t) fun _ => .ok _ _
  · exact expect_faultAt _ t _
  · exact expect_faultAt _ t _

end Progress

end BareBones
