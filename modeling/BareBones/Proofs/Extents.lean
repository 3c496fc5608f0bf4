import BareBones.Proofs.NameFaults
import BareBones.Proofs.Nodes

/-!
Where expressions are located. While a text is read, the expressions of the tree so far
have the spans of the tokens that they were read from: a step gives each new factor the span
of the token it was given, and a group the span from its open parenthesis to that token
(`Progress.step_inPlace`). So each node of an accepted program reaches from the first to the
last of its own tokens in the text (`Source.nodes_located`).
-/

namespace BareBones

/-! ## Expressions of a state -/

/-- The expressions begin where the tokens before them say, the first of which has the
`i`-th span. -/
def ValuesInPlace (spans : List Span) (i : Nat) (values : List (List Token × Expr)) : Prop :=
  ∀ v ∈ values, v.2.InPlace spans (i + v.1.length)

/-- The chain before the factor that comes next. -/
def Expr.LeftInPlace (spans : List Span) (i : Nat) : Option (Expr × Arithmetic) → Prop
  | none => True
  | some (e, _) => e.InPlace spans i

/-- The parenthesis has its own span, behind the chain to its left. -/
def OpenGroup.InPlace (spans : List Span) (i : Nat) (g : OpenGroup) : Prop :=
  Expr.LeftInPlace spans i g.left ∧
    spans[i + (Expr.spelledLeft g.left).length]? = some g.paren

def OpenGroup.AllInPlace (spans : List Span) (i : Nat) : List OpenGroup → Prop
  | [] => True
  | g :: outer => AllInPlace spans i outer ∧ g.InPlace spans (i + (spelledAll outer).length)

/-- The expressions of a first block that an `else` has been read behind. -/
def Opener.values : Opener → List (List Token × Expr)
  | elseBlock c body => (Statement.ifThen c body).values
  | _ => []

/-- The expressions of the statement under way, which begins at the `i`-th span. -/
def Focus.InPlace (spans : List Span) (i : Nat) : Focus → Prop
  | afterThen c body => ValuesInPlace spans i (Statement.ifThen c body).values
  | blockOpen opener => ValuesInPlace spans i opener.values
  | factor into groups left =>
    OpenGroup.AllInPlace spans (i + into.spelled.length) groups ∧
      Expr.LeftInPlace spans (i + into.spelled.length + (OpenGroup.spelledAll groups).length) left
  | chain into groups value =>
    OpenGroup.AllInPlace spans (i + into.spelled.length) groups ∧
      value.InPlace spans (i + into.spelled.length + (OpenGroup.spelledAll groups).length)
  | _ => True

/-- The expressions before an open block and in the statement that it belongs to. -/
def Frame.InPlace (spans : List Span) (i : Nat) (f : Frame) : Prop :=
  ValuesInPlace spans i (Statement.valuesAll f.before.reverse) ∧
    ValuesInPlace spans (i + (Statement.tokensAll f.before.reverse).length) f.opener.values

def Frame.AllInPlace (spans : List Span) : List Frame → Prop
  | [] => True
  | f :: outer => AllInPlace spans outer ∧ f.InPlace spans (spelledAll outer).length

/-- All expressions of the tree so far have the spans of the tokens they were read from. -/
structure Progress.InPlace (spans : List Span) (p : Progress) : Prop where
  frames : Frame.AllInPlace spans p.frames
  done : ValuesInPlace spans (Frame.spelledAll p.frames).length
    (Statement.valuesAll p.done.reverse)
  focus : p.focus.InPlace spans p.spelledBefore.length

section

variable {spans : List Span} {i : Nat}

/-! ## Parts of a state -/

namespace ValuesInPlace

theorem nil : ValuesInPlace spans i [] := List.forall_mem_nil _

theorem append {us vs : List (List Token × Expr)} (hu : ValuesInPlace spans i us)
    (hv : ValuesInPlace spans i vs) : ValuesInPlace spans i (us ++ vs) :=
  List.forall_mem_append.mpr ⟨hu, hv⟩

theorem behind {w : List Token} {values : List (List Token × Expr)}
    (h : ValuesInPlace spans (i + w.length) values) :
    ValuesInPlace spans i (behindTokens w values) := by
  intro v hv
  obtain ⟨v', hv', rfl⟩ := mem_behindTokens.mp hv
  rw [List.length_append, ← Nat.add_assoc]
  exact h v' hv'

end ValuesInPlace

theorem Expr.extend_inPlace {left : Option (Expr × Arithmetic)} {f : Factor}
    (hleft : LeftInPlace spans i left) (hf : f.InPlace spans (i + (spelledLeft left).length)) :
    (extend left f).InPlace spans i := by
  cases left with
  | none => exact hf
  | some pair =>
    refine ⟨hleft, ?_⟩
    rw [spelledLeft, List.length_append] at hf
    exact hf

theorem Destination.values_statement (into : Destination) (e : Expr) :
    (into.statement e).values = [(into.spelled, e)] := by
  cases into <;> rfl

/-- The expressions of a statement whose last block is closed. -/
theorem Opener.values_statement (o : Opener) (body : List Statement) :
    (o.statement body).values =
      o.values ++ behindTokens (o.spelled ++ [.openCurly]) (Statement.valuesAll body) := by
  cases o <;> simp [statement, values, spelled, Statement.values, Statement.tokens]

namespace Progress

variable {p q : Progress} {t : Located Token}

namespace InPlace

theorem start : start.InPlace spans where
  frames := trivial
  done := .nil
  focus := trivial

theorem await (h : p.InPlace spans) {f : Focus} (hf : f.InPlace spans p.spelledBefore.length) :
    (p.await f).InPlace spans where
  frames := h.frames
  done := h.done
  focus := hf

theorem complete (h : p.InPlace spans) {s : Statement}
    (hs : ValuesInPlace spans p.spelledBefore.length s.values) :
    (p.complete s).InPlace spans where
  frames := h.frames
  done := by
    rw [spelledBefore, List.length_append] at hs
    rw [Progress.complete, List.reverse_cons, Statement.valuesAll_append]
    exact h.done.append (.behind (hs.append .nil))
  focus := trivial

theorem openBlock (h : p.InPlace spans) {o : Opener}
    (ho : ValuesInPlace spans p.spelledBefore.length o.values) :
    (p.openBlock o).InPlace spans where
  frames := ⟨h.frames, h.done, by rwa [spelledBefore, List.length_append] at ho⟩
  done := .nil
  focus := trivial

/-- The body of a block stands behind its header and its brace. -/
theorem closeBlock (h : p.InPlace spans) (hq : p.closeBlock? = some q) : q.InPlace spans := by
  unfold closeBlock? at hq
  split at hq
  · cases hq
  · rename_i f frames hframes
    obtain ⟨hframes', hbefore, hopener⟩ : Frame.AllInPlace spans (f :: frames) :=
      hframes ▸ h.frames
    have houter : ({ p with frames, done := f.before, focus := .statement } : Progress).InPlace
        spans := ⟨hframes', hbefore, trivial⟩
    have hbody : (Frame.spelledAll p.frames).length =
        (Frame.spelledAll frames ++ Statement.tokensAll f.before.reverse).length +
          (f.opener.spelled ++ [Token.openCurly]).length := by
      rw [hframes, Frame.spelledAll, Frame.spelled]
      simp only [List.length_append]
      omega
    have hdone := h.done
    rw [hbody] at hdone
    rw [← List.length_append] at hopener
    have hvalues : ValuesInPlace spans
        (Frame.spelledAll frames ++ Statement.tokensAll f.before.reverse).length
        (f.opener.statement p.done.reverse).values := by
      rw [Opener.values_statement]
      exact hopener.append (.behind hdone)
    dsimp only at hq
    split at hq <;> rename_i ho <;> cases hq <;> rw [ho] at hvalues
    · exact houter.await hvalues
    · exact houter.complete hvalues
    · exact houter.complete hvalues
    · exact houter.complete hvalues

end InPlace

/-! ## From step to step -/

/-- If the reading leads on, then to a state whose expressions are in place. -/
def LeadsInPlace (spans : List Span) (r : Reading Progress) : Prop :=
  ∀ q, r = .ok q → q.InPlace spans

namespace LeadsInPlace

theorem ok (h : p.InPlace spans) : LeadsInPlace spans (.ok p) := by
  rintro _ ⟨⟩
  exact h

theorem refuse (wanted : Expectation) (t : Located Token) :
    LeadsInPlace spans (refuse wanted t) :=
  fun q h => absurd h (refuse_ne_ok wanted t q)

theorem expect {wanted : Token} (h : p.InPlace spans) :
    LeadsInPlace spans (expect wanted t p) := by
  intro q hq
  obtain ⟨-, rfl⟩ := expect_eq_ok hq
  exact h

theorem bind {α : Type} {r : Reading α} {f : α → Reading Progress}
    (h : ∀ a, r = .ok a → LeadsInPlace spans (f a)) : LeadsInPlace spans (r >>= f) := by
  intro q hq
  obtain ⟨a, ha, hf⟩ := bind_eq_ok hq
  exact h a ha q hf

/-- Whatever is read, no expression is under way behind it. -/
theorem awaits {α : Type} (hp : p.InPlace spans) (r : Reading α) {f : α → Focus}
    (hf : ∀ a, (f a).InPlace spans p.spelledBefore.length) :
    LeadsInPlace spans (r >>= fun a => pure (p.await (f a))) :=
  bind fun a _ => ok (hp.await (hf a))

end LeadsInPlace

theorem readFactor_inPlace {f : Factor} (h : p.readFactor t = .ok f)
    (ht : spans[i]? = some t.span) : f.InPlace spans i := by
  unfold readFactor at h
  split at h
  · obtain ⟨n, -, hf⟩ := bind_eq_ok h
    cases hf
    exact ht
  · obtain ⟨_, -, hf⟩ := bind_eq_ok h
    cases hf
    exact ht
  · exact absurd h (refuse_ne_ok _ t f)

theorem stepStatement_inPlace (hp : p.InPlace spans) (t : Located Token) :
    LeadsInPlace spans (p.stepStatement t) := by
  unfold stepStatement
  split
  iterate 6 exact .ok (hp.await trivial)
  · exact .awaits hp _ fun _ => trivial
  · split
    · rename_i hclose
      exact .ok (hp.closeBlock hclose)
    · exact .refuse _ t
  · split
    · exact .ok hp
    · exact .refuse _ t
  · exact .refuse _ t

/-- A factor has the span of the token that is read, and so has a parenthesis. -/
theorem stepFactor_inPlace (hp : p.InPlace spans) {into : Destination} {groups : List OpenGroup}
    {left : Option (Expr × Arithmetic)} (hf : p.focus = .factor into groups left)
    (ht : spans[p.spelled.length]? = some t.span) :
    LeadsInPlace spans (p.stepFactor into groups left t) := by
  have hfocus := hp.focus
  rw [hf] at hfocus
  obtain ⟨hgroups, hleft⟩ := hfocus
  have hnext : spans[p.spelledBefore.length + into.spelled.length +
      (OpenGroup.spelledAll groups).length + (Expr.spelledLeft left).length]? = some t.span := by
    rw [← ht, spelled, hf, Focus.spelled]
    simp only [List.length_append, Nat.add_assoc]
  unfold stepFactor
  split
  · exact .ok (hp.await ⟨⟨hgroups, hleft, hnext⟩, trivial⟩)
  · refine .bind fun f hr => .ok (hp.await ⟨hgroups, ?_⟩)
    exact Expr.extend_inPlace hleft (readFactor_inPlace hr hnext)

/-- A group reaches from its open parenthesis to the one that is read. -/
theorem stepChain_inPlace (hp : p.InPlace spans) {into : Destination} {groups : List OpenGroup}
    {value : Expr} (hf : p.focus = .chain into groups value)
    (ht : spans[p.spelled.length]? = some t.span) :
    LeadsInPlace spans (p.stepChain into groups value t) := by
  have hfocus := hp.focus
  rw [hf] at hfocus
  obtain ⟨hgroups, hvalue⟩ := hfocus
  unfold stepChain
  split
  · exact .ok (hp.await ⟨hgroups, hvalue⟩)
  · refine .expect (hp.complete ?_)
    rw [Destination.values_statement]
    exact List.forall_mem_singleton.mpr hvalue
  · rename_i g outer _
    obtain ⟨houter, hleft, hparen⟩ := hgroups
    -- the value begins behind the parenthesis, which stands behind the chain to its left
    have hstart : p.spelledBefore.length + into.spelled.length +
        (OpenGroup.spelledAll (g :: outer)).length =
          p.spelledBefore.length + into.spelled.length + (OpenGroup.spelledAll outer).length +
            (Expr.spelledLeft g.left).length + 1 := by
      rw [OpenGroup.spelledAll, OpenGroup.spelled]
      simp only [List.length_append, List.length_singleton, Nat.add_assoc]
    rw [hstart] at hvalue
    have hclose : spans[p.spelledBefore.length + into.spelled.length +
        (OpenGroup.spelledAll outer).length + (Expr.spelledLeft g.left).length + 1 +
          value.tokens.length]? = some t.span := by
      rw [← hstart, ← ht, spelled, hf, Focus.spelled]
      simp only [List.length_append, Nat.add_assoc]
    refine .expect (hp.await ⟨houter, Expr.extend_inPlace hleft ⟨?_, hvalue⟩⟩)
    exact ⟨g.paren, t.span, hparen, hclose, rfl⟩

theorem endCondition_inPlace (hp : p.InPlace spans) (test : Test) (groups : List OpenCondition)
    (links : List Link) (last : Condition) (t : Located Token) :
    LeadsInPlace spans (p.endCondition test groups links last t) := by
  unfold endCondition
  dsimp only
  split
  · refine .expect (hp.await ?_)
    cases test <;> exact .nil
  · exact .expect (hp.await trivial)

theorem stepCondition_inPlace (hp : p.InPlace spans) (test : Test) (groups : List OpenCondition)
    (links : List Link) (focus : ConditionFocus) (t : Located Token) :
    LeadsInPlace spans (p.stepCondition test groups links focus t) := by
  unfold stepCondition
  split
  · exact .ok (hp.await trivial)
  · exact .ok (hp.await trivial)
  · exact .awaits hp _ fun _ => trivial
  · exact .ok (hp.await trivial)
  · exact .awaits hp _ fun _ => trivial
  · exact .ok (hp.await trivial)
  · exact endCondition_inPlace hp _ _ _ _ t
  · exact .awaits hp _ fun _ => trivial
  · exact endCondition_inPlace hp _ _ _ _ t
  · exact .ok (hp.await trivial)
  · exact endCondition_inPlace hp _ _ _ _ t

/-- A token that is read at its own place leaves all expressions in place. -/
theorem step_inPlace (hp : p.InPlace spans) (ht : spans[p.spelled.length]? = some t.span) :
    LeadsInPlace spans (p.step t) := by
  have hfocus := hp.focus
  unfold step
  split <;> rename_i hf
  · exact stepStatement_inPlace hp t
  · exact stepStatement_inPlace hp t
  · rw [hf] at hfocus
    split
    · exact .ok (hp.await hfocus)
    · -- without an `else` the statement is complete before the token is read
      exact stepStatement_inPlace (hp.complete hfocus) t
  · split
    · refine .bind fun scope _ => .ok ⟨hp.frames, hp.done, trivial⟩
    · exact .refuse _ t
  · split
    · exact .ok (hp.await ⟨trivial, trivial⟩)
    · exact .expect (hp.complete .nil)
  · exact .expect (hp.await ⟨trivial, trivial⟩)
  · exact stepFactor_inPlace hp hf ht
  · exact stepChain_inPlace hp hf ht
  · exact .expect (hp.await trivial)
  · exact stepCondition_inPlace hp _ _ _ _ t
  · rw [hf] at hfocus
    exact .expect (hp.openBlock hfocus)
  · exact .expect (hp.await trivial)
  · exact .awaits hp _ fun _ => trivial
  · exact .expect (hp.await .nil)
  · exact .expect (hp.await trivial)
  · exact .awaits hp _ fun _ => trivial
  · exact .awaits hp _ fun _ => trivial
  · split
    · exact .ok (hp.await trivial)
    · exact .expect (hp.await trivial)
  · exact .expect (hp.complete .nil)
  · exact .expect (hp.await trivial)
  · exact .awaits hp _ fun _ => trivial
  · exact .expect (hp.await trivial)
  · exact .expect (hp.complete .nil)

/-- The first of the spans from the `k`-th on, and those behind it. -/
theorem span_of_prefix_drop {a : Span} {as : List Span} {k : Nat} (h : a :: as <+: spans.drop k) :
    spans[k]? = some a ∧ as <+: spans.drop (k + 1) := by
  obtain ⟨more, hmore⟩ := h
  rw [List.cons_append] at hmore
  constructor
  · rw [← Nat.add_zero k, ← List.getElem?_drop, ← hmore]
    rfl
  · rw [← List.drop_drop, ← hmore]
    exact ⟨more, rfl⟩

/-- Tokens that are read at their places leave all expressions in place. -/
theorem feedAll_inPlace {ts : List (Located Token)} (hp : p.InPlace spans)
    (hts : ∀ t ∈ ts, t.val ≠ .newline ∧ t.val ≠ .eof)
    (hspans : ts.map (·.span) <+: spans.drop p.spelled.length) (h : p.feedAll ts = .ok q) :
    q.InPlace spans ∧ q.spelled.length = p.spelled.length + ts.length := by
  induction ts generalizing p with
  | nil =>
    cases h
    exact ⟨hp, rfl⟩
  | cons t ts ih =>
    obtain ⟨⟨hnewline, heof⟩, hts⟩ := List.forall_mem_cons.mp hts
    obtain ⟨ht, hspans⟩ := span_of_prefix_drop hspans
    rw [feedAll] at h
    split at h
    · rename_i next hnext
      rw [feed, if_neg hnewline] at hnext
      -- the next state spells one token more, so the next token has the next span
      have hadvance := (step_advance hnext).resolve_right fun hend => heof hend.1
      obtain ⟨u, hspelled, -⟩ := hadvance.spelled
      have hlength : next.spelled.length = p.spelled.length + 1 := by
        rw [hspelled, List.length_append, List.length_singleton]
      obtain ⟨hq, hread⟩ := ih (step_inPlace hp ht next hnext) hts (hlength ▸ hspans) h
      refine ⟨hq, ?_⟩
      rw [hread, hlength, List.length_cons]
      omega
    · cases h

end Progress

end

/-! ## The tree of a text -/

namespace Source

theorem inOrder_significant (s : Source) : InOrder (s.significant.map (·.span)) where
  proper := by
    intro a ha
    obtain ⟨t, ht, rfl⟩ := List.mem_map.mp ha
    have ht := (List.mem_filter.mp ht).1
    rw [s.tokens_eq] at ht
    obtain ⟨hs, g, gs, -, rfl⟩ := Segment.exists_of_mem_locateAll ht
    exact g.first_le_last_locate _
  disjoint := by
    rw [List.pairwise_map, significant, s.tokens_eq]
    exact (Segment.locateAll_disjoint s.segments_cut .start).filter _

/-- The expressions of an accepted program have the spans of their tokens. -/
theorem values_inPlace {s : Source} {p : Program} (h : s.parse = .ok p) :
    ValuesInPlace (s.significant.map (·.span)) 0 (Statement.valuesAll p.statements) := by
  obtain ⟨ts, e, hs, he, hts, -⟩ := s.significant_eq
  have hnewline : ∀ t ∈ s.significant, t.val ≠ .newline := fun t => ne_newline_of_mem_significant
  have hspans : s.significant.map (·.span) = ts.map (·.span) ++ [e.span] := by
    rw [hs, List.map_append, List.map_singleton]
  rw [parse_significant, BareBones.parse] at h
  rw [hs] at h hnewline
  rw [List.forall_mem_append] at hnewline
  cases hr : Progress.start.feedAll (ts ++ [e]) with
  | error err =>
    rw [hr] at h
    cases h
  | ok r =>
    rw [hr] at h
    cases h
    obtain ⟨q, hq, hstep⟩ := Progress.feedAll_concat (hnewline.2 e (by simp)) hr
    have hread : ts.map (·.span) <+:
        (s.significant.map (·.span)).drop Progress.start.spelled.length := by
      rw [hspans]
      exact List.prefix_append ..
    obtain ⟨hplace, hlength⟩ := Progress.feedAll_inPlace .start
      (fun t ht => ⟨hnewline.1 t ht, hts t ht⟩) hread hq
    have hlast : (s.significant.map (·.span))[q.spelled.length]? = some e.span := by
      rw [hlength, hspans]
      simp [Progress.start, Progress.spelled, Progress.spelledBefore, Frame.spelledAll,
        Statement.tokensAll, Focus.spelled]
    have hdone := (Progress.step_inPlace hplace hlast r hstep).done
    rcases Progress.step_advance hstep with hadvance | ⟨-, hfinish⟩
    · exact absurd he hadvance.ne_eof
    · rw [hfinish.frames] at hdone
      exact hdone

/-- The tokens of the text that the tree spells as `w`, and those before and behind them. -/
theorem exists_spelled {s : Source} {p : Program} (h : s.parse = .ok p) {before w : List Token}
    (hw : before ++ w <+: Statement.tokensAll p.statements) :
    ∃ ws ts vs, s.significant = ws ++ ts ++ vs ∧
      ws.map (·.val.reading) = before.map Token.reading ∧
      ts.map (·.val.reading) = w.map Token.reading := by
  obtain ⟨after, hafter⟩ := hw
  have hreadings : s.significant.map (·.val.reading) =
      before.map Token.reading ++ w.map Token.reading ++
        (after.map Token.reading ++ [Token.eof.reading]) := by
    have hvals : s.significant.map (·.val.reading) =
        (s.significant.map (·.val)).map Token.reading := by
      rw [List.map_map]
      rfl
    rw [hvals, s.map_val_significant, List.map_append, ← (parse_spelled h).1, ← hafter]
    simp
  obtain ⟨us, vs, hsplit, hus, -⟩ := List.map_eq_append_iff.mp hreadings
  obtain ⟨ws, ts, rfl, hws, hts⟩ := List.map_eq_append_iff.mp hus
  exact ⟨ws, ts, vs, hsplit, hws, hts⟩

/-- Every node of an accepted program is located at exactly its own tokens. The tokens of
the text, newlines left out, fall into those that the tree spells before the node, those of
the node and the rest, and the node reaches from the first position of the first of its
tokens to the last position of the last one, on however many lines they stand. So it
contains the nodes directly below it, and these do not overlap and stand in the order of the
text. -/
theorem nodes_located {s : Source} {p : Program} (h : s.parse = .ok p) {before : List Token}
    {n : Expr} (hn : p.HasNode before n) :
    (∃ ws ts vs t u, s.significant = ws ++ ts ++ vs ∧
      ws.map (·.val.reading) = before.map Token.reading ∧
      ts.map (·.val.reading) = n.tokens.map Token.reading ∧
      ts.head? = some t ∧ ts.getLast? = some u ∧
      n.span.first = t.span.first ∧ n.span.last = u.span.last) ∧
    (∀ c ∈ n.children, n.span.first ≤ c.2.span.first ∧ c.2.span.last ≤ n.span.last) ∧
    n.children.Pairwise fun c d => c.2.span.last < d.2.span.first := by
  have hplace : n.InPlace (s.significant.map (·.span)) before.length := by
    obtain ⟨v, hv, inner, hinner, rfl⟩ := hn
    have hvalue := values_inPlace h v hv
    rw [Nat.zero_add] at hvalue
    rw [List.length_append]
    exact hinner.inPlace hvalue
  obtain ⟨ws, ts, vs, hsplit, hws, hts⟩ := exists_spelled h hn.tokens
  have hbefore : ws.length = before.length := by simpa using congrArg List.length hws
  have hlength : ts.length = n.tokens.length := by simpa using congrArg List.length hts
  have hextent := Expr.extent_of_inPlace hplace
  rw [hsplit, ← hbefore] at hextent
  obtain ⟨t, u, hfirst, hlast, hspan⟩ := hextent.ends hlength
  exact ⟨⟨ws, ts, vs, t, u, hsplit, hws, hts, hfirst, hlast, hspan⟩,
    Expr.children_within s.inOrder_significant hplace,
    Expr.children_apart s.inOrder_significant hplace⟩

/-- A group on three lines, in a chain in a block. -/
def spreadGroup : Source where
  name := "spread"
  text := "let x = 4;\nwhile (x > 1) \x7b\n  x = x / (1\n\t+ 2\n ) - 3;\n\x7d"

theorem nodes_located_spreadGroup :
    ∃ p before n, spreadGroup.parse = .ok p ∧ p.HasNode before n ∧
      n.span = ⟨⟨3, 11⟩, ⟨5, 2⟩⟩ ∧
      (∃ ws ts vs t u, spreadGroup.significant = ws ++ ts ++ vs ∧
        ws.map (·.val.reading) = before.map Token.reading ∧
        ts.map (·.val.reading) = n.tokens.map Token.reading ∧
        ts.head? = some t ∧ ts.getLast? = some u ∧
        n.span.first = t.span.first ∧ n.span.last = u.span.last) ∧
      (∀ c ∈ n.children, n.span.first ≤ c.2.span.first ∧ c.2.span.last ≤ n.span.last) ∧
      n.children.Pairwise fun c d => c.2.span.last < d.2.span.first := by
  have hspans : (spreadGroup.parse.toOption.map fun p =>
      ((Statement.valuesAll p.statements).flatMap (·.2.children)).map (·.2.span)) =
        some [⟨⟨3, 7⟩, ⟨3, 7⟩⟩, ⟨⟨3, 11⟩, ⟨5, 2⟩⟩, ⟨⟨5, 6⟩, ⟨5, 6⟩⟩] := by
    decide +kernel
  cases hp : spreadGroup.parse with
  | error e =>
    rw [hp] at hspans
    cases hspans
  | ok p =>
    rw [hp] at hspans
    have hbelow : ((Statement.valuesAll p.statements).flatMap (·.2.children)).map (·.2.span) =
        [⟨⟨3, 7⟩, ⟨3, 7⟩⟩, ⟨⟨3, 11⟩, ⟨5, 2⟩⟩, ⟨⟨5, 6⟩, ⟨5, 6⟩⟩] := Option.some.inj hspans
    have hmem : (⟨⟨3, 11⟩, ⟨5, 2⟩⟩ : Span) ∈
        ((Statement.valuesAll p.statements).flatMap (·.2.children)).map (·.2.span) := by
      rw [hbelow]
      simp
    obtain ⟨c, hc, hspan⟩ := List.mem_map.mp hmem
    obtain ⟨v, hv, hchild⟩ := List.mem_flatMap.mp hc
    have hnode : p.HasNode (v.1 ++ (c.1 ++ [])) c.2 :=
      ⟨v, hv, c.1 ++ [], .deeper hchild (.self _), rfl⟩
    exact ⟨p, _, c.2, rfl, hnode, hspan, nodes_located hp hnode⟩

end Source

end BareBones
