import BareBones.Proofs.Erasure
import BareBones.Syntax.Fault

/-!
The first fault. What has been read without a fault is the beginning of a sentence:
every state of the reader can be completed to statements (`Progress.completable`).
The token at which reading stops is one that no text with this beginning can have
there, and each of them is refused at it for the same reason
(`Source.parse_error_earliest`).
-/

namespace BareBones

open Grammar

/-! ## Every state can be completed -/

/-- The tokens `w` begin a list of statements. -/
def Completable (w : List Token) : Prop := ∃ ss, w <+: Statement.tokensAll ss

theorem Completable.mono {w v : List Token} (hv : Completable v) (h : w <+: v) :
    Completable w := by
  obtain ⟨ss, hs⟩ := hv
  exact ⟨ss, h.trans hs⟩

theorem Statement.completable (s : Statement) : Completable s.tokens :=
  ⟨[s], by simp [Statement.tokensAll]⟩

def Literal.zero : Literal := ⟨0, by decide⟩

/-- Open groups can be closed. -/
theorem OpenGroup.exists_expr (groups : List OpenGroup) (e : Expr) :
    ∃ e' : Expr, spelledAll groups ++ e.tokens <+: e'.tokens := by
  induction groups generalizing e with
  | nil => exact ⟨e, by simp [spelledAll]⟩
  | cons g outer ih =>
    obtain ⟨e', he'⟩ := ih (.extend g.left (.group e .nowhere))
    refine ⟨e', .trans ⟨[.closeParen], ?_⟩ he'⟩
    simp [Progress.extend_tokens, spelledAll, spelled]

theorem OpenCondition.exists_condition (groups : List OpenCondition) (c : Condition) :
    ∃ c' : Condition, spelledAll groups ++ c.tokens <+: c'.tokens := by
  induction groups generalizing c with
  | nil => exact ⟨c, by simp [spelledAll]⟩
  | cons g outer ih =>
    obtain ⟨c', hc'⟩ := ih (g.links.foldl Link.before (.group g.negated c))
    refine ⟨c', .trans ⟨[.closeParen], ?_⟩ hc'⟩
    simp [Progress.foldl_before_tokens, spelledAll, spelled]

theorem ConditionFocus.exists_condition (f : ConditionFocus) :
    ∃ c : Condition, f.spelled <+: c.tokens := by
  cases f with
  | term => exact ⟨.simple false (.number .zero), List.nil_prefix⟩
  | negated => exact ⟨.simple true (.number .zero), _, rfl⟩
  | operand n x => exact ⟨.simple n x, by simp [spelled]⟩
  | right n x op =>
    refine ⟨.compare n x op (.number .zero), [Literal.zero.token], ?_⟩
    simp [spelled, Operand.token]
  | whole c => exact ⟨c, List.prefix_rfl⟩
  | group n c => exact ⟨.group n c, List.prefix_rfl⟩

theorem Opener.completable (o : Opener) : Completable o.spelled :=
  (o.statement []).completable.mono (by simp [statement_tokens])

theorem Destination.completable (into : Destination) (groups : List OpenGroup) (e : Expr) :
    Completable (into.spelled ++ OpenGroup.spelledAll groups ++ e.tokens) := by
  obtain ⟨e', v, he'⟩ := OpenGroup.exists_expr groups e
  refine (into.statement e').completable.mono ⟨v ++ [.semicolon], ?_⟩
  simp [Progress.statement_tokens, ← he']

theorem Test.completable (test : Test) {w : List Token} {c : Condition} (hw : w <+: c.tokens) :
    Completable ([.keyword test.keyword, .openParen] ++ w) := by
  obtain ⟨v, hv⟩ := hw
  refine (test.opener c).completable.mono ⟨v ++ [.closeParen], ?_⟩
  simp [Progress.opener_spelled, Condition.guard, ← hv]

theorem Focus.completable (f : Focus) : Completable f.spelled := by
  cases f with
  | start => exact ⟨[], List.nil_prefix⟩
  | statement => exact ⟨[], List.nil_prefix⟩
  | afterThen c body => exact (Statement.ifThen c body).completable
  | newName => exact (Statement.declare ⟨"", .nowhere⟩ none).completable.mono ⟨_, rfl⟩
  | newValue x => exact (Statement.declare x none).completable.mono ⟨_, rfl⟩
  | assignSign x =>
    exact (Destination.assigned x).completable [] (.factor (.number .zero .nowhere))
      |>.mono ⟨_, rfl⟩
  | factor into groups left =>
    refine (into.completable groups (.extend left (.number .zero .nowhere))).mono
      ⟨[Literal.zero.token], ?_⟩
    simp [spelled, Progress.extend_tokens]
  | chain into groups value => exact into.completable groups value
  | conditionOpen test =>
    have hc : [] <+: (Condition.simple false (.number .zero)).tokens := List.nil_prefix
    exact (test.completable hc).mono ⟨_, rfl⟩
  | condition test groups links focus =>
    obtain ⟨c, v, hc⟩ := focus.exists_condition
    obtain ⟨c', v', hc'⟩ := OpenCondition.exists_condition groups (links.foldl Link.before c)
    have hw : OpenCondition.spelledAll groups ++ (Link.spelledAll links ++ focus.spelled) <+:
        c'.tokens := ⟨v ++ v', by simp [← hc', ← hc, Progress.foldl_before_tokens]⟩
    simpa [spelled] using test.completable hw
  | blockOpen opener => exact opener.completable
  | boundOpen =>
    exact (Opener.timesBlock ⟨.number .zero, .nowhere⟩).completable.mono ⟨_, rfl⟩
  | bound => exact (Opener.timesBlock ⟨.number .zero, .nowhere⟩).completable.mono ⟨_, rfl⟩
  | boundClose b => exact (Opener.timesBlock b).completable.mono ⟨_, rfl⟩
  | printOpen => exact (Statement.print ⟨.text "", .nowhere⟩ []).completable.mono ⟨_, rfl⟩
  | printFirst => exact (Statement.print ⟨.text "", .nowhere⟩ []).completable.mono ⟨_, rfl⟩
  | printMore first more =>
    refine (Statement.print first (more.reverse ++ [⟨.text "", .nowhere⟩])).completable.mono
      ⟨[.str "", .closeParen, .semicolon], ?_⟩
    simp [spelled, PrintArg.spelled, Statement.tokens, PrintArg.furtherTokens, PrintArg.token]
  | printNext first more =>
    refine (Statement.print first more.reverse).completable.mono ⟨[.closeParen, .semicolon], ?_⟩
    simp [spelled, PrintArg.spelled, Statement.tokens]
  | printEnd first more =>
    refine (Statement.print first more.reverse).completable.mono ⟨[.semicolon], ?_⟩
    simp [spelled, PrintArg.spelled, Statement.tokens]
  | readOpen => exact (Statement.read ⟨"", .nowhere⟩).completable.mono ⟨_, rfl⟩
  | readTarget => exact (Statement.read ⟨"", .nowhere⟩).completable.mono ⟨_, rfl⟩
  | readClose x => exact (Statement.read x).completable.mono ⟨_, rfl⟩
  | readEnd x => exact (Statement.read x).completable.mono ⟨_, rfl⟩

/-- What stands in a block is completed with the blocks around it. -/
theorem Frame.completable (frames : List Frame) {w : List Token} (h : Completable w) :
    Completable (spelledAll frames ++ w) := by
  induction frames generalizing w with
  | nil => exact h
  | cons f outer ih =>
    have hblock : Completable (f.spelled ++ w) := by
      obtain ⟨ss, v, hs⟩ := h
      refine ⟨f.before.reverse ++ [f.opener.statement ss], v ++ [.closeCurly], ?_⟩
      simp [Statement.tokensAll, Opener.statement_tokens, ← hs, braced, spelled]
    simpa [spelledAll] using ih hblock

theorem Progress.completable (p : Progress) : Completable p.spelled := by
  have hinner : Completable (Statement.tokensAll p.done.reverse ++ p.focus.spelled) := by
    obtain ⟨ss, v, hs⟩ := p.focus.completable
    exact ⟨p.done.reverse ++ ss, v, by simp [← hs]⟩
  simpa [spelled, spelledBefore] using Frame.completable p.frames hinner

/-- What begins a list of statements begins a program. -/
theorem Completable.exists_program {w : List Token} (h : Completable w) :
    ∃ more : List Token, Derives .program ((w ++ more).map Token.terminal) := by
  obtain ⟨ss, v, hs⟩ := h
  refine ⟨v ++ [.eof], ?_⟩
  rw [← List.append_assoc, hs, List.map_append]
  exact .program (Statement.tokensAll_derives ss)

/-! ## Where reading stops -/

namespace Progress

/-- Input that is no token is refused as such, whatever is wanted in its place. -/
theorem step_unknown (p : Progress) (u : String) (s : Span) :
    p.step ⟨.unknown u, s⟩ = .error ⟨.unrecognized u, s⟩ := by
  unfold step
  cases p.focus with
  | chain into groups value => cases groups <;> rfl
  | condition test groups links focus => cases focus <;> cases groups <;> rfl
  | _ => rfl

/-- Reading stops at one of the tokens. -/
theorem feedAll_eq_error {p : Progress} {ts : List (Located Token)} {e : Located ParseError}
    (h : p.feedAll ts = .error e) : ∃ before t after q, ts = before ++ t :: after ∧
      p.feedAll before = .ok q ∧ q.feed t = .error e := by
  induction ts generalizing p with
  | nil => cases h
  | cons t ts ih =>
    rw [feedAll] at h
    cases hp : p.feed t with
    | error e' =>
      rw [hp] at h
      cases h
      exact ⟨[], t, ts, p, rfl, rfl, hp⟩
    | ok next =>
      rw [hp] at h
      obtain ⟨before, u, after, q, rfl, hq, hu⟩ := ih h
      exact ⟨t :: before, u, after, q, rfl, by rw [feedAll, hp]; exact hq, hu⟩

theorem feed_of_ne_newline (p : Progress) {t : Located Token} (h : t.val ≠ .newline) :
    p.feed t = p.step t := by
  rw [feed, if_neg h]

/-- The same tokens at other places are refused at the same one for the same reason,
whatever follows them. -/
theorem feedAll_error_of_vals {before before' : List (Located Token)} {t t' : Located Token}
    {q : Progress} {e : Located ParseError} (hq : start.feedAll before = .ok q)
    (he : q.step t = .error e) (hb : before'.map (·.val) = before.map (·.val))
    (ht : t'.val = t.val) (hn : t.val ≠ .newline) (after : List (Located Token)) :
    start.feedAll (before' ++ t' :: after) = .error ⟨e.val, t'.span⟩ := by
  have hplaces : before'.map Located.erase = before.map Located.erase := by
    have h := congrArg Token.unlocated hb
    rwa [Token.unlocated, Token.unlocated, List.map_map, List.map_map] at h
  have hrun : Reading.erase erase (start.feedAll before') = .ok q.erase := by
    rw [← feedAll_erase, hplaces, feedAll_erase, hq]
    rfl
  obtain ⟨q', hq', hqq⟩ := Reading.erase_eq_ok hrun
  have hstep : Reading.erase erase (q'.step t') = .error e.erase := by
    have htt : t'.erase = t.erase := by rw [Located.erase, ht, Located.erase]
    rw [← step_erase, hqq, htt, step_erase, he]
    rfl
  obtain ⟨e', he', hee⟩ := Reading.erase_eq_error hstep
  have hspan : e'.span = t'.span := q'.step_faultAt t' e' he'
  have hval : e'.val = e.val := by rw [← e'.erase_val, hee, e.erase_val]
  rw [feedAll_append, hq']
  simp only [Except.bind, feedAll, q'.feed_of_ne_newline (t := t') (by rwa [ht]), he']
  rw [← hspan, ← hval]

end Progress

namespace Source

theorem ne_newline_of_mem_significant {s : Source} {t : Located Token} (h : t ∈ s.significant) :
    t.val ≠ .newline := by
  simpa using (List.mem_filter.mp h).2

/-- Nothing follows `eof`. -/
theorem ne_eof_of_before {s : Source} {before after : List (Located Token)} {t : Located Token}
    (h : s.significant = before ++ t :: after) : ∀ u ∈ before, u.val ≠ .eof := by
  obtain ⟨ts, e, hs, -, hts, -⟩ := s.significant_eq
  intro u hu
  have hmem : u ∈ s.significant.dropLast := by
    rw [h, List.dropLast_append_of_ne_nil (by simp)]
    exact List.mem_append_left _ hu
  rw [hs, List.dropLast_concat] at hmem
  exact hts u hmem

/-- The state in which the token that is at fault was found. -/
theorem parse_eq_error {s : Source} {e : Located ParseError} (h : s.parse = .error e) :
    ∃ before t after q, s.significant = before ++ t :: after ∧ t.val ≠ .newline ∧
      wordsOf before = before.map (·.val) ∧ Progress.start.feedAll before = .ok q ∧
      q.step t = .error e := by
  have herror : Progress.start.feedAll s.significant = .error e := by
    rw [parse_significant, BareBones.parse] at h
    cases hp : Progress.start.feedAll s.significant with
    | ok p => rw [hp] at h; cases h
    | error e' => rw [hp] at h; cases h; rfl
  obtain ⟨before, t, after, q, happend, hq, ht⟩ := Progress.feedAll_eq_error herror
  have hnewline {u : Located Token} (hu : u ∈ before ++ t :: after) : u.val ≠ .newline :=
    ne_newline_of_mem_significant (happend ▸ hu)
  have htn : t.val ≠ .newline := hnewline (by simp)
  refine ⟨before, t, after, q, happend, htn, ?_, hq, by rwa [← q.feed_of_ne_newline htn]⟩
  rw [wordsOf_eq_map, List.filter_eq_self.mpr]
  intro u hu
  simpa using hnewline (List.mem_append_left _ hu)

/-- Tokens that begin with given values. -/
theorem exists_of_prefix_vals {before ts : List (Located Token)} {t : Located Token}
    (h : (before ++ [t]).map (·.val) <+: ts.map (·.val)) :
    ∃ before' t' after, ts = before' ++ t' :: after ∧
      before'.map (·.val) = before.map (·.val) ∧ t'.val = t.val := by
  obtain ⟨rest, hrest⟩ := h
  rw [List.map_append, List.append_assoc] at hrest
  obtain ⟨before', last, rfl, hb, hlast⟩ := List.map_eq_append_iff.mp hrest.symm
  obtain ⟨t', after, rfl, ht', -⟩ := List.map_eq_cons_iff.mp hlast
  exact ⟨before', t', after, rfl, hb, ht'⟩

/-- A source is refused at the first token that cannot stand where it does. The tokens
before it begin a program. Every source that begins with the same tokens, this one
included, is refused there for the same reason; and if the token is unrecognized
input, that is the reason. -/
theorem parse_error_earliest {s : Source} {e : Located ParseError} (h : s.parse = .error e) :
    ∃ before t after, s.significant = before ++ t :: after ∧ e.span = t.span ∧
      (∃ more : List Token,
        Derives .program ((before.map (·.val) ++ more).map Token.terminal)) ∧
      (∀ s' : Source, (before ++ [t]).map (·.val) <+: s'.significant.map (·.val) →
        ∃ t', s'.significant[before.length]? = some t' ∧
          s'.parse = .error ⟨e.val, t'.span⟩) ∧
      ∀ u, t.val = .unknown u → e.val = .unrecognized u := by
  obtain ⟨before, t, after, q, happend, hnewline, hwords, hq, ht⟩ := parse_eq_error h
  refine ⟨before, t, after, happend, q.step_faultAt t e ht, ?_, ?_, ?_⟩
  · obtain ⟨v, hspelled, hv⟩ := (Progress.feedAll_advances (ne_eof_of_before happend) hq).spelled
    have hqv : q.spelled = v := hspelled
    obtain ⟨more, hmore⟩ := q.completable.exists_program
    refine ⟨more, ?_⟩
    rwa [hqv, List.map_append, map_terminal_eq_of_reading hv, hwords, ← List.map_append] at hmore
  · intro s' hs'
    obtain ⟨before', t', after', happend', hb, ht'⟩ := exists_of_prefix_vals hs'
    have hlen : before'.length = before.length := by simpa using congrArg List.length hb
    refine ⟨t', by simp [happend', ← hlen], ?_⟩
    rw [parse_significant, BareBones.parse, happend',
      Progress.feedAll_error_of_vals hq ht hb ht' hnewline]
    rfl
  · intro u hu
    obtain ⟨_, span⟩ := t
    cases hu
    rw [q.step_unknown] at ht
    cases ht
    rfl

/-- An unrecognized character where an operand should stand. -/
def strayCharacter : Source where
  name := "stray"
  text := "let x = 1;\nif (x\n  < @) \x7b x = 2; \x7d"

theorem parse_error_earliest_strayCharacter :
    ∃ e, strayCharacter.parse = .error e ∧
    ∃ before t after, strayCharacter.significant = before ++ t :: after ∧ e.span = t.span ∧
      (∃ more : List Token,
        Derives .program ((before.map (·.val) ++ more).map Token.terminal)) ∧
      (∀ s' : Source, (before ++ [t]).map (·.val) <+: s'.significant.map (·.val) →
        ∃ t', s'.significant[before.length]? = some t' ∧
          s'.parse = .error ⟨e.val, t'.span⟩) ∧
      ∀ u, t.val = .unknown u → e.val = .unrecognized u := by
  have herror : strayCharacter.parse.isOk = false := by decide +kernel
  cases hs : strayCharacter.parse with
  | ok p =>
    rw [hs] at herror
    cases herror
  | error e => exact ⟨e, rfl, parse_error_earliest hs⟩

end Source

end BareBones
