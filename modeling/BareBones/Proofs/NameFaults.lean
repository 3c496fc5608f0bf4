import BareBones.Compile
import BareBones.Proofs.FirstFault

/-!
Faults with names. A name is refused at the first place where it is declared again or
used before its declaration, and the error says what it was used for there: behind a
`let`, at the beginning of a statement or behind `read (`, or anywhere else. A sentence
of the grammar with its numbers in range is refused for no other reason.
-/

namespace BareBones

open Grammar

/-! ## Where statements begin -/

namespace Grammar

/-- What stands before the brace of a block. -/
inductive Header : List Terminal → Prop
  | ifThen {w : List Terminal} : Derives .condition w →
      Header (.keyword .if_ :: .mark .openParen :: (w ++ [.mark .closeParen]))
  | ifElse {w b : List Terminal} : Derives .condition w → Derives .block b →
      Header (.keyword .if_ :: .mark .openParen ::
        (w ++ .mark .closeParen :: (b ++ [.keyword .else_])))
  | whileDo {w : List Terminal} : Derives .condition w →
      Header (.keyword .while_ :: .mark .openParen :: (w ++ [.mark .closeParen]))
  | dotimes {w : List Terminal} : Derives .operand w →
      Header (.keyword .dotimes :: .mark .openParen :: (w ++ [.mark .closeParen]))

/-- A statement may begin behind these terminals. -/
inductive BeforeStatement : List Terminal → Prop
  | start : BeforeStatement []
  | behind {w v : List Terminal} : BeforeStatement w → Derives .statement v →
      BeforeStatement (w ++ v)
  | inside {w v : List Terminal} : BeforeStatement w → Header v →
      BeforeStatement (w ++ (v ++ [.mark .openCurly]))

/-- Marks that end a statement, or begin or end a block. -/
def delimiters : List Punctuation := [.semicolon, .openCurly, .closeCurly]

def Delimited (w : List Terminal) : Prop := ∃ m ∈ delimiters, w.getLast? = some (.mark m)

theorem Delimited.append {v : List Terminal} (h : Delimited v) (w : List Terminal) :
    Delimited (w ++ v) := by
  obtain ⟨m, hm, hlast⟩ := h
  exact ⟨m, hm, by rw [List.getLast?_append, hlast, Option.some_or]⟩

theorem delimited_concat {m : Punctuation} (hm : m ∈ delimiters) (w : List Terminal) :
    Delimited (w ++ [.mark m]) :=
  ⟨m, hm, List.getLast?_concat⟩

theorem Derives.block_delimited {w : List Terminal} (h : Derives .block w) : Delimited w := by
  cases h with
  | @block v _ => exact delimited_concat (by decide) (.mark .openCurly :: v)

theorem Derives.statement_delimited {w : List Terminal} (h : Derives .statement w) :
    Delimited w := by
  have hsemi : ∀ v, Delimited (v ++ [.mark .semicolon]) := delimited_concat (by decide)
  cases h with
  | declare => exact hsemi [.keyword .let_, .ident]
  | @declareValue v _ => exact hsemi (.keyword .let_ :: .ident :: .operator .assign :: v)
  | @assign v _ => exact hsemi (.ident :: .operator .assign :: v)
  | @ifThen c b _ hb =>
    have h := hb.block_delimited.append
      (.keyword .if_ :: .mark .openParen :: (c ++ [.mark .closeParen]))
    simpa using h
  | @ifElse c b o _ _ ho =>
    have h := ho.block_delimited.append (.keyword .if_ :: .mark .openParen ::
      (c ++ .mark .closeParen :: (b ++ [.keyword .else_])))
    simpa using h
  | @whileDo c b _ hb =>
    have h := hb.block_delimited.append
      (.keyword .while_ :: .mark .openParen :: (c ++ [.mark .closeParen]))
    simpa using h
  | @dotimes c b _ hb =>
    have h := hb.block_delimited.append
      (.keyword .dotimes :: .mark .openParen :: (c ++ [.mark .closeParen]))
    simpa using h
  | @print a v _ _ =>
    have h := hsemi (.keyword .print :: .mark .openParen :: (a ++ (v ++ [.mark .closeParen])))
    simpa using h
  | read => exact hsemi [.keyword .read, .mark .openParen, .ident, .mark .closeParen]

theorem BeforeStatement.delimited {w : List Terminal} (h : BeforeStatement w) :
    w = [] ∨ Delimited w := by
  cases h with
  | start => exact Or.inl rfl
  | behind _ hv => exact Or.inr (hv.statement_delimited.append _)
  | @inside w v _ _ => exact Or.inr ((delimited_concat (by decide) v).append w)

end Grammar

theorem Opener.header (o : Opener) : Header (o.spelled.map Token.terminal) := by
  cases o with
  | thenBlock c => simpa [spelled, Condition.guard] using Header.ifThen c.derives
  | elseBlock c body =>
    have hb := braced_derives (Statement.tokensAll_derives body)
    simpa [spelled, Condition.guard, Statement.tokens] using Header.ifElse c.derives hb
  | whileBlock c => simpa [spelled, Condition.guard] using Header.whileDo c.derives
  | timesBlock b => simpa [spelled] using Header.dotimes b.val.derives

theorem Grammar.BeforeStatement.statements {w : List Terminal} (h : BeforeStatement w)
    (ss : List Statement) :
    BeforeStatement (w ++ (Statement.tokensAll ss).map Token.terminal) := by
  induction ss generalizing w with
  | nil => simpa [Statement.tokensAll] using h
  | cons s ss ih =>
    rw [Statement.tokensAll, List.map_append, ← List.append_assoc]
    exact ih (h.behind s.derives)

theorem Frame.beforeStatement (frames : List Frame) :
    BeforeStatement ((spelledAll frames).map Token.terminal) := by
  induction frames with
  | nil => exact .start
  | cons f outer ih =>
    have h := (ih.statements f.before.reverse).inside f.opener.header
    simpa [spelledAll, spelled] using h

theorem Token.eq_punctuation {t : Token} {m : Punctuation} (h : t.terminal = .mark m) :
    t = .punctuation m := by
  cases t <;> cases h
  rfl

theorem Token.eq_keyword {t : Token} {k : Keyword} (h : t.terminal = .keyword k) :
    t = .keyword k := by
  cases t <;> cases h
  rfl

namespace Progress

/-- Between two statements, what has been read stands before a statement. -/
theorem Ready.beforeStatement {p : Progress} (h : p.Ready) :
    BeforeStatement (p.spelled.map Token.terminal) := by
  have hbefore : BeforeStatement (p.spelledBefore.map Token.terminal) := by
    simpa [spelledBefore] using (Frame.beforeStatement p.frames).statements p.done.reverse
  unfold Ready at h
  split at h <;> rename_i hf
  · simpa [spelled, hf, Focus.spelled] using hbefore
  · simpa [spelled, hf, Focus.spelled] using hbefore
  · simpa [spelled, hf, Focus.spelled] using hbefore.behind (Statement.derives (.ifThen _ _))
  · exact h.elim

/-! ## Where a step leads -/

/-- A token that leads to a state of one kind wherever it may stand. -/
def isLandmark : Token → Bool
  | .punctuation m => m ∈ delimiters
  | .keyword .read => true
  | _ => false

/-- Behind a delimiter a statement may begin, and behind `read` its parenthesis. -/
def Lands (t : Token) (r : Reading Progress) : Prop :=
  ∀ q, r = .ok q →
    (∀ m ∈ delimiters, t = .punctuation m → q.Ready) ∧
      (t = .keyword .read → q.focus = .readOpen)

namespace Lands

theorem refuse (wanted : Expectation) (t : Located Token) (u : Token) :
    Lands u (BareBones.refuse wanted t) :=
  fun q h => absurd h (refuse_ne_ok wanted t q)

theorem other {t : Token} (ht : isLandmark t = false) (r : Reading Progress) : Lands t r := by
  refine fun q _ => ⟨?_, ?_⟩
  · rintro m hm rfl
    simp [isLandmark, hm] at ht
  · rintro rfl
    cases ht

theorem ready {t : Token} (ht : t ≠ .keyword .read) {p : Progress} (hp : p.Ready) :
    Lands t (.ok p) := by
  intro q h
  cases h
  exact ⟨fun _ _ _ => hp, fun h => absurd h ht⟩

theorem expect {wanted : Token} {next : Progress} (h : Lands wanted (.ok next))
    (t : Located Token) : Lands t.val (BareBones.expect wanted t next) := by
  intro q hq
  obtain ⟨ht, rfl⟩ := expect_eq_ok hq
  rw [ht]
  exact h q rfl

/-- A token that stands for an operand is no landmark. -/
theorem bind {α : Type} {t : Token} {r : Reading α} {f : α → Reading Progress}
    (h : ∀ a, r = .ok a → isLandmark t = false) : Lands t (r >>= f) := by
  intro q hq
  obtain ⟨a, ha, -⟩ := bind_eq_ok hq
  exact other (h a ha) _ q hq

end Lands

variable {p : Progress} {t : Located Token}

theorem ready_complete (p : Progress) (s : Statement) : (p.complete s).Ready := trivial

theorem ready_openBlock (p : Progress) (opener : Opener) : (p.openBlock opener).Ready := trivial

/-- What is kept of a landmark is that landmark. -/
theorem Uses.not_landmark {t u : Token} (h : p.Uses t u) (hu : isLandmark u = false) :
    isLandmark t = false := by
  have hr := h.reading
  cases t with
  | punctuation m | keyword k =>
    cases u <;> cases hr
    exact hu
  | _ => rfl

theorem readFactor_not_landmark {f : Factor} (h : p.readFactor t = .ok f) :
    isLandmark t.val = false := by
  obtain ⟨u, hu, hf⟩ := readFactor_uses h
  refine hu.not_landmark ?_
  cases f with
  | number n s | var x s =>
    cases hf
    rfl
  | group e s => simp at hf

theorem readOperand_not_landmark {x : Operand} (h : p.readOperand t = .ok x) :
    isLandmark t.val = false :=
  (readOperand_uses h).not_landmark (by cases x <;> rfl)

theorem readBound_not_landmark {b : Located Bound} (h : p.readBound t = .ok b) :
    isLandmark t.val = false :=
  (readBound_uses h).not_landmark (by cases b.val <;> rfl)

theorem readPrintArg_not_landmark {a : Located PrintArg} (h : p.readPrintArg t = .ok a) :
    isLandmark t.val = false :=
  (readPrintArg_uses h).not_landmark (by cases a.val <;> rfl)

theorem readTarget_not_landmark {x : Located String} (h : p.readTarget t = .ok x) :
    isLandmark t.val = false :=
  (readTarget_uses h).not_landmark rfl

theorem closeBlock?_ready {q : Progress} (h : p.closeBlock? = some q) : q.Ready := by
  unfold closeBlock? at h
  split at h
  · cases h
  · split at h <;> cases h <;> trivial

theorem stepStatement_lands (p : Progress) (t : Located Token) :
    Lands t.val (p.stepStatement t) := by
  unfold stepStatement
  split <;> rename_i ht
  iterate 5 exact .other (by rw [ht]; rfl) _
  · rw [ht]
    rintro q ⟨⟩
    exact ⟨by simp, fun _ => rfl⟩
  · exact .other (by rw [ht]; rfl) _
  · split
    · rename_i next hnext
      exact .ready (by rw [ht]; simp) (closeBlock?_ready hnext)
    · exact .refuse _ t _
  · exact .other (by rw [ht]; rfl) _
  · exact .refuse _ t _

theorem stepFactor_lands (p : Progress) (into : Destination) (groups : List OpenGroup)
    (left : Option (Expr × Arithmetic)) (t : Located Token) :
    Lands t.val (p.stepFactor into groups left t) := by
  unfold stepFactor
  split
  · rename_i ht
    exact .other (by rw [ht]; rfl) _
  · exact .bind fun f hf => readFactor_not_landmark hf

theorem stepChain_lands (p : Progress) (into : Destination) (groups : List OpenGroup)
    (value : Expr) (t : Located Token) : Lands t.val (p.stepChain into groups value t) := by
  unfold stepChain
  split
  · rename_i ht
    exact .other (by rw [ht]; rfl) _
  · exact .expect (.ready (by simp) (ready_complete _ _)) t
  · exact .expect (.other rfl _) t

theorem endCondition_lands (p : Progress) (test : Test) (groups : List OpenCondition)
    (links : List Link) (last : Condition) (t : Located Token) :
    Lands t.val (p.endCondition test groups links last t) := by
  unfold endCondition
  dsimp only
  split <;> exact .expect (.other rfl _) t

theorem stepCondition_lands (p : Progress) (test : Test) (groups : List OpenCondition)
    (links : List Link) (focus : ConditionFocus) (t : Located Token) :
    Lands t.val (p.stepCondition test groups links focus t) := by
  unfold stepCondition
  split
  · exact .other (by simp [*, isLandmark]) _
  · exact .other (by simp [*, isLandmark, delimiters]) _
  · exact .bind fun x hx => readOperand_not_landmark hx
  · exact .other (by simp [*, isLandmark, delimiters]) _
  · exact .bind fun x hx => readOperand_not_landmark hx
  · exact .other (by simp [*, isLandmark]) _
  · exact p.endCondition_lands _ _ _ _ t
  · exact .bind fun x hx => readOperand_not_landmark hx
  · exact p.endCondition_lands _ _ _ _ t
  · exact .other (by simp [*, isLandmark]) _
  · exact p.endCondition_lands _ _ _ _ t

theorem step_lands (p : Progress) (t : Located Token) : Lands t.val (p.step t) := by
  unfold step
  split
  · exact p.stepStatement_lands t
  · exact p.stepStatement_lands t
  · split
    · rename_i ht
      exact .other (by rw [ht]; rfl) _
    · exact stepStatement_lands _ t
  · split
    · rename_i ht
      exact .other (by rw [ht]; rfl) _
    · exact .refuse _ t _
  · split
    · rename_i ht
      exact .other (by rw [ht]; rfl) _
    · exact .expect (.ready (by simp) (ready_complete _ _)) t
  · exact .expect (.other rfl _) t
  · exact p.stepFactor_lands _ _ _ t
  · exact p.stepChain_lands _ _ _ t
  · exact .expect (.other rfl _) t
  · exact p.stepCondition_lands _ _ _ _ t
  · exact .expect (.ready (by simp) (ready_openBlock _ _)) t
  · exact .expect (.other rfl _) t
  · exact .bind fun b hb => readBound_not_landmark hb
  · exact .expect (.other rfl _) t
  · exact .expect (.other rfl _) t
  · exact .bind fun a ha => readPrintArg_not_landmark ha
  · exact .bind fun a ha => readPrintArg_not_landmark ha
  · split
    · rename_i ht
      exact .other (by rw [ht]; rfl) _
    · exact .expect (.other rfl _) t
  · exact .expect (.ready (by simp) (ready_complete _ _)) t
  · exact .expect (.other rfl _) t
  · exact .bind fun x hx => readTarget_not_landmark hx
  · exact .expect (.other rfl _) t
  · exact .expect (.ready (by simp) (ready_complete _ _)) t

theorem feedAll_concat {ts : List (Located Token)} {t : Located Token} {p q : Progress}
    (ht : t.val ≠ .newline) (h : p.feedAll (ts ++ [t]) = .ok q) :
    ∃ r, p.feedAll ts = .ok r ∧ r.step t = .ok q := by
  rw [feedAll_append] at h
  cases hr : p.feedAll ts with
  | error e =>
    rw [hr] at h
    cases h
  | ok r =>
    refine ⟨r, rfl, ?_⟩
    rw [hr] at h
    cases hs : r.step t with
    | error e => simp [Except.bind, feedAll, r.feed_of_ne_newline ht, hs] at h
    | ok q' => simpa [Except.bind, feedAll, r.feed_of_ne_newline ht, hs] using h

/-! ## What has been read says what comes next -/

section

variable {before : List (Located Token)} {q : Progress}
  (hnewline : ∀ t ∈ before, t.val ≠ .newline) (heof : ∀ t ∈ before, t.val ≠ .eof)
  (hq : start.feedAll before = .ok q)

include hnewline

theorem wordsOf_of_ne_newline : wordsOf before = before.map (·.val) := by
  rw [wordsOf_eq_map, List.filter_eq_self.mpr]
  intro t ht
  simpa using hnewline t ht

include heof hq

theorem map_terminal_spelled :
    q.spelled.map Token.terminal = (before.map (·.val)).map Token.terminal := by
  obtain ⟨v, hv, hread⟩ := (feedAll_advances heof hq).spelled
  have hqv : q.spelled = v := hv
  rw [hqv, map_terminal_eq_of_reading hread, wordsOf_of_ne_newline hnewline]

theorem tracks_naming : q.naming.Tracks (before.map (·.val)) := by
  have hrun : Naming.run {} (wordsOf before) = some q.naming := (feedAll_advances heof hq).named
  rw [wordsOf_of_ne_newline hnewline] at hrun
  simpa using Naming.tracks_start.run hrun

theorem ready_iff : q.Ready ↔ BeforeStatement ((before.map (·.val)).map Token.terminal) := by
  constructor
  · intro h
    rw [← map_terminal_spelled hnewline heof hq]
    exact h.beforeStatement
  · intro h
    rcases List.eq_nil_or_concat before with rfl | ⟨ts, t, hts⟩
    · cases hq
      trivial
    · rw [List.concat_eq_append] at hts
      subst hts
      obtain ⟨r, -, hstep⟩ := feedAll_concat (hnewline t (by simp)) hq
      rcases h.delimited with hnil | ⟨m, hm, hlast⟩
      · simp at hnil
      · have ht : t.val = .punctuation m := by
          rw [List.map_append, List.map_append] at hlast
          exact Token.eq_punctuation (by simpa using hlast)
        exact (r.step_lands t q hstep).1 m hm ht

/-- The parenthesis of `read` is open. -/
theorem focus_eq_readTarget_iff : q.focus = .readTarget ↔
    [.keyword .read, .mark .openParen] <:+ (before.map (·.val)).map Token.terminal := by
  constructor
  · intro h
    rw [← map_terminal_spelled hnewline heof hq, spelled, h, List.map_append]
    exact List.suffix_append _ _
  · rintro ⟨pre, hpre⟩
    rw [List.map_map] at hpre
    obtain ⟨ts, us, rfl, -, hus⟩ := List.map_eq_append_iff.mp hpre.symm
    obtain ⟨t, us, rfl, ht, hus⟩ := List.map_eq_cons_iff.mp hus
    obtain ⟨u, us, rfl, hu, hus⟩ := List.map_eq_cons_iff.mp hus
    obtain rfl := List.map_eq_nil_iff.mp hus
    rw [List.append_cons] at hq
    obtain ⟨r, hr, hstep⟩ := feedAll_concat (hnewline u (by simp)) hq
    obtain ⟨r', -, hstep'⟩ := feedAll_concat (hnewline t (by simp)) hr
    have hopen : r.focus = .readOpen := (r'.step_lands t r hstep').2 (Token.eq_keyword ht)
    rw [step, hopen] at hstep
    obtain ⟨-, rfl⟩ := expect_eq_ok hstep
    rfl

end

theorem use?_eq_target_iff (p : Progress) :
    p.focus.use? = some .target ↔ p.Ready ∨ p.focus = .readTarget := by
  unfold Ready
  cases p.focus with
  | condition test groups links focus => cases focus <;> simp [Focus.use?, ConditionFocus.use?]
  | _ => simp [Focus.use?]

end Progress

/-! ## Names that break the rules -/

/-- The name `x` behind the tokens `w` is declared again, or used without having been
declared. -/
def Misnamed (w : List Token) (x : String) : Prop :=
  EndsInLet w ∧ (∃ i, DeclaresAt w i x) ∨ ¬ EndsInLet w ∧ ¬ ∃ i, DeclaresAt w i x

/-- Tokens that keep the rules have no such name among them. -/
theorem WellNamed.not_misnamed {w v : List Token} {x : String}
    (h : WellNamed (w ++ .id x :: v)) : ¬ Misnamed w x := by
  rw [List.append_cons] at h
  have hx := ((wellNamed_snoc_iff w (.id x)).mp h.of_append).2 x rfl
  rintro (⟨hl, hd⟩ | ⟨hl, hd⟩)
  · exact hx.1 hl hd
  · exact hd (hx.2 hl)

/-- A name is given a value at the beginning of a statement and by `read`. -/
def IsTarget (w : List Token) : Prop :=
  BeforeStatement (w.map Token.terminal) ∨
    [.keyword .read, .mark .openParen] <:+ w.map Token.terminal

/-- `n` says what is wrong with the name `x` behind the tokens `w`. -/
structure Blames (w : List Token) (x : String) (n : NameError) : Prop where
  misnamed : Misnamed w x
  redefinition : n = .redefinition x ↔ EndsInLet w
  target : n = .undefinedTarget x ↔ IsTarget w
  value : n = .undefined x ↔ ¬ EndsInLet w ∧ ¬ IsTarget w

theorem NameUse.error_eq_iff (x : String) (use use' : NameUse) :
    use.error x = use'.error x ↔ use = use' := by
  cases use <;> cases use' <;> simp [NameUse.error]

/-- The use of a name and whether it is declared say all that is wrong with it. -/
theorem Blames.of_use {w : List Token} {x : String} {use : NameUse}
    (hlet : use = .declared ↔ EndsInLet w) (htarget : use = .target ↔ IsTarget w)
    (hdeclared : use = .declared ↔ ∃ i, DeclaresAt w i x) : Blames w x (use.error x) where
  misnamed := by
    by_cases hu : use = .declared
    · exact Or.inl ⟨hlet.mp hu, hdeclared.mp hu⟩
    · exact Or.inr ⟨mt hlet.mpr hu, mt hdeclared.mpr hu⟩
  redefinition := (NameUse.error_eq_iff x use .declared).trans hlet
  target := (NameUse.error_eq_iff x use .target).trans htarget
  value := by
    rw [← hlet, ← htarget]
    refine (NameUse.error_eq_iff x use .value).trans ?_
    cases use <;> simp

/-- The first name that breaks the rules is the one that is refused. -/
theorem Source.parse_eq_name_error {s : Source} {n : NameError} {span : Span}
    (h : s.parse = .error ⟨.name n, span⟩) :
    ∃ before t after x, s.significant = before ++ t :: after ∧ t.val = .id x ∧ t.span = span ∧
      Blames (before.map (·.val)) x n ∧ WellNamed (before.map (·.val)) := by
  obtain ⟨before, t, after, q, happend, -, hwords, hq, hstep⟩ := Source.parse_eq_error h
  have heof := Source.ne_eof_of_before happend
  have hnewline : ∀ u ∈ before, u.val ≠ .newline := fun u hu =>
    Source.ne_newline_of_mem_significant (happend ▸ List.mem_append_left _ hu)
  obtain ⟨x, use, ht, huse, rfl, hx⟩ := Progress.step_eq_name_error hstep
  have htracks := Progress.tracks_naming hnewline heof hq
  have hlet : use = .declared ↔ EndsInLet (before.map (·.val)) := by
    rw [← htracks.afterLet, Progress.naming, Focus.afterLet_iff, huse, Option.some.injEq]
  have htarget : use = .target ↔ IsTarget (before.map (·.val)) := by
    rw [IsTarget, ← Progress.ready_iff hnewline heof hq,
      ← Progress.focus_eq_readTarget_iff hnewline heof hq, ← q.use?_eq_target_iff, huse,
      Option.some.injEq]
  have hdeclared : use = .declared ↔ ∃ i, DeclaresAt (before.map (·.val)) i x := by
    rw [hx, ← htracks.declared x]
    exact List.contains_iff_mem
  have hnamed : WellNamed (before.map (·.val)) := by
    have hrun : Naming.run {} (wordsOf before) = some q.naming :=
      (Progress.feedAll_advances heof hq).named
    rw [← Naming.run_isSome_iff, ← hwords, hrun]
    rfl
  exact ⟨before, t, after, x, happend, ht, (q.step_faultAt t _ hstep).symm,
    .of_use hlet htarget hdeclared, hnamed⟩

theorem Source.map_val_significant (s : Source) :
    s.significant.map (·.val) = s.words ++ [.eof] := by
  obtain ⟨ts, e, hs, he, -, hw⟩ := s.significant_eq
  rw [hs, hw, List.map_append, List.map_singleton, he]

/-- A sentence with numbers in range is refused as soon as a name breaks the rules. -/
theorem Source.parse_of_misnamed {s : Source}
    (hd : Derives .program ((s.significant.map (·.val)).map Token.terminal))
    (hl : LiteralsFit (s.significant.map (·.val))) {w v : List Token} {x : String}
    (hsplit : s.significant.map (·.val) = w ++ .id x :: v) (hmis : Misnamed w x) :
    ∃ n span, s.parse = .error ⟨.name n, span⟩ := by
  rw [s.map_val_significant] at hd hl hsplit
  have hnamed : ¬ WellNamed s.words := by
    intro h
    have heof : WellNamed (s.words ++ [.eof]) :=
      (wellNamed_snoc_iff s.words .eof).mpr ⟨h, fun y hy => by cases hy⟩
    rw [hsplit] at heof
    exact heof.not_misnamed hmis
  have hl' : LiteralsFit s.words := fun d hmem => hl d (List.mem_append_left _ hmem)
  rcases Source.parse_of_derives hd hl' with ⟨p, hp⟩ | ⟨-, herror⟩
  · exact absurd (Source.parse_spelled hp).2.2 hnamed
  · exact herror

/-- What the report on a fault says first. -/
theorem Source.render_report (s : Source) (e : Located ParseError) :
    ∃ rest, (s.report e).render = e.val.label ++ ": " ++ e.val.message ++ "\n" ++ rest := by
  refine ⟨Report.unlines ((Complaint.rows ⟨e.val.message, s, e.span⟩ ++ [""]) ++
    [Report.verdict 1]), ?_⟩
  simp [Source.report, Report.render, Report.isEmpty, Report.unlines, String.append_assoc]

/-- A name is refused where it is declared again or used before its declaration, and
the error is the one for its place. The other way around, a sentence with numbers in
range in which some name breaks these rules is refused at the first that does. The
report begins with what kind of fault it is. -/
theorem Source.name_faults_exact (s : Source) :
    (∀ n span, s.parse = .error ⟨.name n, span⟩ →
      ∃ before t after x, s.significant = before ++ t :: after ∧ t.val = .id x ∧
        t.span = span ∧ Blames (before.map (·.val)) x n) ∧
    (Derives .program ((s.significant.map (·.val)).map Token.terminal) →
      LiteralsFit (s.significant.map (·.val)) →
      (∃ before x after, s.significant.map (·.val) = before ++ .id x :: after ∧
        Misnamed before x) →
      ∃ before t after x n, s.significant = before ++ t :: after ∧ t.val = .id x ∧
        Misnamed (before.map (·.val)) x ∧
        (∀ before' y after', before.map (·.val) = before' ++ .id y :: after' →
          ¬ Misnamed before' y) ∧
        s.parse = .error ⟨.name n, t.span⟩) ∧
    ∀ e f, s.parse = .error e → ∃ r, s.compile f = .error r ∧
      ∃ rest, r.render =
        (if e.val.isName then "Semantic error: " else "Syntax error: ") ++ e.val.message ++ "\n" ++
          rest := by
  refine ⟨?_, ?_, ?_⟩
  · intro n span h
    obtain ⟨before, t, after, x, happend, ht, hspan, hblames, -⟩ := parse_eq_name_error h
    exact ⟨before, t, after, x, happend, ht, hspan, hblames⟩
  · rintro hd hl ⟨w, y, v, hsplit, hmis⟩
    obtain ⟨n, span, herror⟩ := parse_of_misnamed hd hl hsplit hmis
    obtain ⟨before, t, after, x, happend, ht, rfl, hblames, hnamed⟩ := parse_eq_name_error herror
    refine ⟨before, t, after, x, n, happend, ht, hblames.misnamed, ?_, herror⟩
    intro w' y' v' hw'
    exact (hw' ▸ hnamed).not_misnamed
  · intro e f h
    obtain ⟨rest, hrest⟩ := s.render_report e
    refine ⟨s.report e, by rw [Source.compile, h], rest, ?_⟩
    rw [hrest]
    cases e.val <;> rfl

/-- A name is read that has no declaration, behind one whose declaration stands in a
block of its own. Two more faults follow. -/
def Source.lateName : Source where
  name := "late"
  text := "if (1) \x7b let a; \x7d a = 2;\nread(b); let a; print(b);"

def Source.lateWords : List Token :=
  [.keyword .if_, .openParen, .number "1", .closeParen, .openCurly, .keyword .let_, .id "a",
    .semicolon, .closeCurly, .id "a", .operator .assign, .number "2", .semicolon,
    .keyword .read, .openParen, .id "b", .closeParen, .semicolon, .keyword .let_, .id "a",
    .semicolon, .keyword .print, .openParen, .id "b", .closeParen, .semicolon, .eof]

theorem Source.lateName_words : lateName.significant.map (·.val) = lateWords := by
  decide +kernel

theorem Source.lateWords_sentence : Derives .program (lateWords.map Token.terminal) := by
  have hif := Derives.ifThen (.simple false .operandNumber)
    (.block (.moreStatements .declare .noStatements))
  have hassign := Derives.assign (.expr .number .chainEnd)
  have hprint := Derives.print .argumentName .argumentsEnd
  exact Derives.program (.moreStatements hif (.moreStatements hassign
    (.moreStatements .read (.moreStatements .declare (.moreStatements hprint .noStatements)))))

theorem Source.lateWords_fit : LiteralsFit lateWords := by
  intro d hd
  have hdigits : d = "1" ∨ d = "2" := by simpa [lateWords] using hd
  rcases hdigits with rfl | rfl <;> decide +kernel

theorem Source.lateName_faults :
    lateName.parse = .error ⟨.name (.undefinedTarget "b"), ⟨⟨2, 6⟩, ⟨2, 6⟩⟩⟩ ∧
      (∃ before t after x, lateName.significant = before ++ t :: after ∧ t.val = .id x ∧
        t.span = ⟨⟨2, 6⟩, ⟨2, 6⟩⟩ ∧ Blames (before.map (·.val)) x (.undefinedTarget "b")) ∧
      (∃ before t after x, lateName.significant = before ++ t :: after ∧ t.val = .id x ∧
        t.span = ⟨⟨2, 6⟩, ⟨2, 6⟩⟩ ∧ Misnamed (before.map (·.val)) x ∧
        ∀ before' y after', before.map (·.val) = before' ++ .id y :: after' →
          ¬ Misnamed before' y) ∧
      ∃ r, lateName.compile .pretty = .error r ∧
        ∃ rest, r.render =
          "Semantic error: " ++ (NameError.undefinedTarget "b").message ++ "\n" ++ rest := by
  have htest : (match lateName.parse with
      | .error e => decide (e = ⟨.name (.undefinedTarget "b"), ⟨⟨2, 6⟩, ⟨2, 6⟩⟩⟩)
      | .ok _ => false) = true := by decide +kernel
  obtain ⟨hname, hfirst, hreport⟩ := lateName.name_faults_exact
  cases hp : lateName.parse with
  | ok p =>
    rw [hp] at htest
    cases htest
  | error e =>
    rw [hp, decide_eq_true_iff] at htest
    subst htest
    -- the second `let a` is given, and the `b` before it is found
    have hlet : Misnamed (lateWords.take 19) "a" := .inl ⟨rfl, 5, rfl, rfl⟩
    obtain ⟨before, t, after, x, n, happend, ht, hmis, hnone, herror⟩ :=
      hfirst (lateName_words ▸ lateWords_sentence) (lateName_words ▸ lateWords_fit)
        ⟨lateWords.take 19, "a", lateWords.drop 20, lateName_words, hlet⟩
    have hspan : t.span = ⟨⟨2, 6⟩, ⟨2, 6⟩⟩ :=
      congrArg Located.span (Except.error.inj (herror.symm.trans hp))
    obtain ⟨r, hr, rest, hrest⟩ := hreport _ .pretty hp
    exact ⟨rfl, hname _ _ hp, ⟨before, t, after, x, happend, ht, hspan, hmis, hnone⟩, r, hr, rest,
      hrest⟩

end BareBones
