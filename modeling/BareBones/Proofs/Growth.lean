import BareBones.Proofs.Reading

/-!
What reading adds. Apart from where it leaves off in the statement under way, a step
completes a statement, opens or closes a block, or declares a name
(`Progress.step_moves`). So the statements outside of any block and the declared names
only ever get more, and those that are there stay as they are
(`Progress.feedAll_grows`).
-/

namespace BareBones.Progress

/-! ## What a step does -/

/-- What a step can do to a state, whatever it leaves the focus at. -/
inductive Moves : Progress → Progress → Prop
  | await (p : Progress) (f : Focus) : Moves p (p.await f)
  | complete (p : Progress) (s : Statement) : Moves p (p.complete s)
  | openBlock (p : Progress) (o : Opener) : Moves p (p.openBlock o)
  | closeBlock {p q : Progress} : p.closeBlock? = some q → Moves p q
  | declare (p : Progress) (x : String) (f : Focus) :
      Moves p { p with scope := ⟨x :: p.scope.declared⟩, focus := f }
  /-- A statement that was complete already, and then the step itself. -/
  | behind {p q : Progress} (s : Statement) : Moves (p.complete s) q → Moves p q

/-- If there is a next state, it is reached by one of these moves. -/
def MovesTo (p : Progress) (r : Reading Progress) : Prop := ∀ q, r = .ok q → Moves p q

namespace MovesTo

variable {p : Progress}

theorem ok {q : Progress} (h : Moves p q) : MovesTo p (.ok q) := by
  rintro _ ⟨⟩
  exact h

theorem refuse (wanted : Expectation) (t : Located Token) : MovesTo p (refuse wanted t) :=
  fun q h => absurd h (refuse_ne_ok wanted t q)

theorem expect {wanted : Token} {next : Progress} (h : Moves p next) (t : Located Token) :
    MovesTo p (expect wanted t next) := by
  intro q hq
  obtain ⟨-, rfl⟩ := expect_eq_ok hq
  exact h

theorem bind {α : Type} {r : Reading α} {f : α → Reading Progress}
    (h : ∀ a, r = .ok a → MovesTo p (f a)) : MovesTo p (r >>= f) := by
  intro q hq
  obtain ⟨a, ha, hf⟩ := bind_eq_ok hq
  exact h a ha q hf

theorem awaits {α : Type} (r : Reading α) (f : α → Focus) :
    MovesTo p (r >>= fun a => pure (p.await (f a))) :=
  bind fun _ _ => ok (.await p _)

end MovesTo

theorem stepStatement_moves (p : Progress) (t : Located Token) : MovesTo p (p.stepStatement t) := by
  unfold stepStatement
  split
  iterate 6 exact .ok (.await p _)
  · exact .awaits _ _
  · split
    · rename_i h
      exact .ok (.closeBlock h)
    · exact .refuse _ t
  · split
    · exact .ok (.await p p.focus)
    · exact .refuse _ t
  · exact .refuse _ t

theorem stepFactor_moves (p : Progress) (into : Destination) (groups : List OpenGroup)
    (left : Option (Expr × Arithmetic)) (t : Located Token) :
    MovesTo p (p.stepFactor into groups left t) := by
  unfold stepFactor
  split
  · exact .ok (.await p _)
  · exact .awaits _ _

theorem stepChain_moves (p : Progress) (into : Destination) (groups : List OpenGroup)
    (value : Expr) (t : Located Token) : MovesTo p (p.stepChain into groups value t) := by
  unfold stepChain
  split
  · exact .ok (.await p _)
  · exact .expect (.complete p _) t
  · exact .expect (.await p _) t

theorem endCondition_moves (p : Progress) (test : Test) (groups : List OpenCondition)
    (links : List Link) (last : Condition) (t : Located Token) :
    MovesTo p (p.endCondition test groups links last t) := by
  unfold endCondition
  dsimp only
  split <;> exact .expect (.await p _) t

theorem stepCondition_moves (p : Progress) (test : Test) (groups : List OpenCondition)
    (links : List Link) (focus : ConditionFocus) (t : Located Token) :
    MovesTo p (p.stepCondition test groups links focus t) := by
  unfold stepCondition
  split
  · exact .ok (.await p _)
  · exact .ok (.await p _)
  · exact .awaits _ _
  · exact .ok (.await p _)
  · exact .awaits _ _
  · exact .ok (.await p _)
  · exact p.endCondition_moves _ _ _ _ t
  · exact .awaits _ _
  · exact p.endCondition_moves _ _ _ _ t
  · exact .ok (.await p _)
  · exact p.endCondition_moves _ _ _ _ t

theorem newName_moves (p : Progress) (x : Located String) :
    MovesTo p (do
      let scope ← nameChecked (p.scope.declare x)
      return { p with scope, focus := .newValue x }) := by
  refine .bind fun scope hscope => .ok ?_
  obtain ⟨-, rfl⟩ := declare_eq_ok hscope
  exact .declare p x.val _

/-- There is nothing else that a step does. -/
theorem step_moves (p : Progress) (t : Located Token) : MovesTo p (p.step t) := by
  unfold step
  split
  · exact p.stepStatement_moves t
  · exact p.stepStatement_moves t
  · rename_i c body _
    split
    · exact .ok (.await p _)
    · intro q hq
      exact .behind (.ifThen c body) ((p.complete _).stepStatement_moves t q hq)
  · split
    · exact p.newName_moves ⟨_, t.span⟩
    · exact .refuse _ t
  · split
    · exact .ok (.await p _)
    · exact .expect (.complete p _) t
  · exact .expect (.await p _) t
  · exact p.stepFactor_moves _ _ _ t
  · exact p.stepChain_moves _ _ _ t
  · exact .expect (.await p _) t
  · exact p.stepCondition_moves _ _ _ _ t
  · exact .expect (.openBlock p _) t
  · exact .expect (.await p _) t
  · exact .awaits _ _
  · exact .expect (.await p _) t
  · exact .expect (.await p _) t
  · exact .awaits _ _
  · exact .awaits _ _
  · split
    · exact .ok (.await p _)
    · exact .expect (.await p _) t
  · exact .expect (.complete p _) t
  · exact .expect (.await p _) t
  · exact .awaits _ _
  · exact .expect (.await p _) t
  · exact .expect (.complete p _) t

/-! ## What stays -/

/-- The statements outside of any block, newest first. -/
def outermost (p : Progress) : List Statement :=
  match p.frames.getLast? with
  | some f => f.before
  | none => p.done

theorem outermost_of_frames_nil {p : Progress} (h : p.frames = []) : p.outermost = p.done := by
  rw [outermost, h, List.getLast?_nil]

theorem outermost_complete (p : Progress) (s : Statement) :
    p.outermost <:+ (p.complete s).outermost := by
  unfold outermost complete
  cases p.frames.getLast? with
  | none => exact List.suffix_cons s p.done
  | some f => exact List.suffix_rfl

theorem outermost_openBlock (p : Progress) (o : Opener) :
    (p.openBlock o).outermost = p.outermost := by
  unfold outermost openBlock
  rw [List.getLast?_cons]
  cases p.frames.getLast? <;> rfl

/-- The block that is closed belongs to a statement behind those before it. -/
theorem outermost_closeBlock {p q : Progress} (h : p.closeBlock? = some q) :
    p.outermost <:+ q.outermost := by
  unfold closeBlock? at h
  split at h
  · cases h
  · rename_i f frames hf
    have houter : p.outermost = ({ p with frames, done := f.before } : Progress).outermost := by
      unfold outermost
      rw [hf, List.getLast?_cons]
      cases frames.getLast? <;> rfl
    dsimp only at h
    rw [houter]
    split at h <;> cases h
    · exact List.suffix_rfl
    all_goals exact outermost_complete _ _

/-- `q` has the outer statements and names of `p`, and perhaps more. -/
structure Grows (p q : Progress) : Prop where
  statements : p.outermost <:+ q.outermost
  names : p.scope.declared <:+ q.scope.declared

theorem Grows.refl (p : Progress) : Grows p p := ⟨List.suffix_rfl, List.suffix_rfl⟩

theorem Grows.trans {p q r : Progress} (hpq : Grows p q) (hqr : Grows q r) : Grows p r :=
  ⟨hpq.statements.trans hqr.statements, hpq.names.trans hqr.names⟩

theorem grows_complete (p : Progress) (s : Statement) : Grows p (p.complete s) :=
  ⟨p.outermost_complete s, List.suffix_rfl⟩

theorem scope_closeBlock {p q : Progress} (h : p.closeBlock? = some q) : q.scope = p.scope := by
  unfold closeBlock? at h
  split at h
  · cases h
  · dsimp only at h
    split at h <;> cases h <;> rfl

theorem Moves.grows {p q : Progress} (h : Moves p q) : Grows p q := by
  induction h with
  | await p f => exact ⟨List.suffix_rfl, List.suffix_rfl⟩
  | complete p s => exact p.grows_complete s
  | openBlock p o =>
    exact ⟨(p.outermost_openBlock o).symm ▸ List.suffix_rfl, List.suffix_rfl⟩
  | closeBlock h =>
    exact ⟨outermost_closeBlock h, (scope_closeBlock h).symm ▸ List.suffix_rfl⟩
  | declare p x f => exact ⟨List.suffix_rfl, List.suffix_cons x _⟩
  | behind s _ ih => exact (grows_complete _ s).trans ih

theorem feed_grows {p q : Progress} {t : Located Token} (h : p.feed t = .ok q) : Grows p q := by
  unfold feed at h
  split at h
  · cases h
    exact .refl p
  · exact (p.step_moves t q h).grows

/-- Nothing that has been read is taken back. -/
theorem feedAll_grows {p q : Progress} {ts : List (Located Token)} (h : p.feedAll ts = .ok q) :
    Grows p q := by
  induction ts generalizing p with
  | nil =>
    cases h
    exact .refl _
  | cons t ts ih =>
    rw [feedAll] at h
    split at h
    · rename_i next hnext
      exact (feed_grows hnext).trans (ih h)
    · cases h

end BareBones.Progress
