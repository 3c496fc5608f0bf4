import BareBones.Proofs.C.Precedence

/-!
What C computes for the tokens of an expression, beside the value that the
expression has from left to right. The two are the same when the expression is
`ordered`. For operators in any other order there are operands at which they
differ, so that `ordered` is the exact condition.
-/

namespace BareBones

namespace C

def Grouping.value (store : String → Int) : Grouping → Option Int
  | number d => some (decimalValue d)
  | name x => some (store x)
  | binary op left right => op.combine (left.value store) (right.value store)

/-- C gives the tokens the value `v`, or leaves them undefined if `v` is `none`. -/
def Evaluates (store : String → Int) (w : List Lexeme) (v : Option Int) : Prop :=
  ∃ r, Parses .sum w r ∧ r.value store = v

/-- The value of a sum depends on that of its last summand only. -/
theorem Waiting.join_congr {store : String → Int} {t u : Grouping} (w : Waiting)
    (h : t.value store = u.value store) : (w.join t).value store = (w.join u).value store := by
  obtain _ | ⟨l, op⟩ := w
  · exact h
  · simp only [Waiting.join, Grouping.value, h]

/-- A sum with a value has one for its last summand. -/
theorem Waiting.value_of_join {store : String → Int} {w : Waiting} {t : Grouping} {z : Int}
    (h : (w.join t).value store = some z) : ∃ a, t.value store = some a := by
  obtain _ | ⟨l, op⟩ := w
  · exact ⟨z, h⟩
  · obtain ⟨-, a, -, ha, -⟩ := Arithmetic.combine_eq_some h
    exact ⟨a, ha⟩

end C

open C

theorem Expr.evaluates_emitted_iff (e : Expr) (store : String → Int) (v : Option Int) :
    Evaluates store e.emitted v ↔ v = e.grouped.value store := by
  simp only [Evaluates, Expr.parses_emitted_iff]
  constructor
  · rintro ⟨r, rfl, rfl⟩
    rfl
  · rintro rfl
    exact ⟨_, rfl, rfl⟩

theorem Expr.grouped_factor (f : Factor) : (Expr.factor f).grouped = f.grouped := by
  rw [Expr.grouped, Expr.parts_factor]
  rfl

/-- Nothing waits in front of a product. -/
theorem Expr.parts_of_isProduct {e : Expr} (h : e.shape.isProduct = true) :
    e.parts.1 = none := by
  cases e with
  | factor f => rw [Expr.parts_factor]
  | binary left op right =>
    rw [Expr.shape, Shape.isProduct, Bool.and_eq_true] at h
    rw [Expr.parts_multiply left right h.1]
    exact Expr.parts_of_isProduct h.2

/-- Where the order of the operators allows it, the last operator is the outermost. -/
theorem Expr.grouped_binary {left : Expr} {op : Arithmetic} (right : Factor)
    (h : op.isMultiplicative = true → left.shape.isProduct = true) :
    (Expr.binary left op right).grouped = .binary op left.grouped right.grouped := by
  cases hop : op.isMultiplicative with
  | true =>
    have hleft := Expr.parts_of_isProduct (h hop)
    rw [Expr.grouped, Expr.grouped, Expr.parts_multiply left right hop, hleft]
    rfl
  | false =>
    rw [Expr.grouped, Expr.parts_add left right hop]
    rfl

/-! ## Ordered expressions -/

mutual

theorem Factor.grouped_value {f : Factor} (store : String → Int) (h : f.shape.ordered = true) :
    f.grouped.value store = f.value store := by
  cases f with
  | number n s => rw [Factor.grouped, Grouping.value, decimalValue_toString, Factor.value]
  | var x s => rw [Factor.grouped, Grouping.value, Factor.value]
  | group e s =>
    rw [Factor.shape, Shape.ordered] at h
    rw [Factor.grouped, Factor.value]
    exact Expr.grouped_value store h

theorem Expr.grouped_value {e : Expr} (store : String → Int) (h : e.shape.ordered = true) :
    e.grouped.value store = e.value store := by
  cases e with
  | factor f =>
    rw [Expr.shape] at h
    rw [Expr.grouped_factor, Expr.value]
    exact Factor.grouped_value store h
  | binary left op right =>
    rw [Expr.shape] at h
    obtain ⟨hop, hleft, hright⟩ := Shape.ordered_binary_iff.mp h
    rw [Expr.grouped_binary right hop, Grouping.value, Expr.value,
      Expr.grouped_value store hleft, Factor.grouped_value store hright]

end

/-! ## Operands at which the values differ -/

/-- Both are at least `bound` from zero, and one more than twice as far as the other. -/
def Apart (bound : Nat) (p q : Int) : Prop :=
  bound ≤ p.natAbs ∧ 2 * p.natAbs < q.natAbs ∨ bound ≤ q.natAbs ∧ 2 * q.natAbs < p.natAbs

theorem Apart.symm {bound : Nat} {p q : Int} (h : Apart bound p q) : Apart bound q p :=
  Or.symm h

theorem Apart.mono {bound bound' : Nat} {p q : Int} (h : Apart bound p q)
    (hle : bound' ≤ bound) : Apart bound' p q := by
  unfold Apart at *
  omega

theorem Apart.ne {bound : Nat} {p q : Int} (h : Apart bound p q) : p ≠ q := by
  unfold Apart at h
  rintro rfl
  omega

/-- The remainders of a number just above the smaller divisor. -/
theorem tmod_apart {bound : Nat} {p q : Int} (hp : bound < p.natAbs)
    (hq : 2 * p.natAbs < q.natAbs) :
    Apart bound (Int.tmod (p.natAbs + bound) p) (Int.tmod (p.natAbs + bound) q) := by
  have hsmall : (Int.tmod (p.natAbs + bound) p).natAbs = bound := by
    rw [Int.natAbs_tmod]
    have habs : ((p.natAbs : Int) + bound).natAbs = p.natAbs + bound := by omega
    rw [habs, Nat.add_mod_left, Nat.mod_eq_of_lt hp]
  have hlarge : Int.tmod (p.natAbs + bound) q = p.natAbs + bound := by
    apply Arithmetic.tmod_of_natAbs_lt
    omega
  rw [hlarge]
  left
  omega

/-- Some left operand keeps right operands apart. -/
theorem Apart.exists_left {bound : Nat} {p q : Int} (op : Arithmetic)
    (h : Apart (bound + 1) p q) :
    ∃ x a b, op.apply x p = some a ∧ op.apply x q = some b ∧ Apart bound a b := by
  have hle := h.mono (Nat.le_succ bound)
  have hp : p ≠ 0 := by unfold Apart at h; omega
  have hq : q ≠ 0 := by unfold Apart at h; omega
  cases op with
  | add => exact ⟨0, p, q, by simp [Arithmetic.apply], by simp [Arithmetic.apply], hle⟩
  | sub =>
    refine ⟨0, -p, -q, by simp [Arithmetic.apply], by simp [Arithmetic.apply], ?_⟩
    unfold Apart at *
    omega
  | mul => exact ⟨1, p, q, by simp [Arithmetic.apply], by simp [Arithmetic.apply], hle⟩
  | div =>
    refine ⟨p * q, q, p, ?_, ?_, hle.symm⟩
    · rw [Arithmetic.apply, if_neg hp, Int.mul_tdiv_cancel_left q hp]
    · rw [Arithmetic.apply, if_neg hq, Int.mul_tdiv_cancel p hq]
  | mod =>
    -- the smaller remainder is `bound`, so it has to be below both divisors
    rcases h with ⟨hbound, hfar⟩ | ⟨hbound, hfar⟩
    · refine ⟨p.natAbs + bound, _, _, if_neg hp, if_neg hq, ?_⟩
      exact tmod_apart (by omega) hfar
    · refine ⟨q.natAbs + bound, _, _, if_neg hp, if_neg hq, ?_⟩
      exact (tmod_apart (by omega) hfar).symm

/-- A multiplicative operator has operands that are far from its result. -/
theorem Arithmetic.exists_apart {op : Arithmetic} (hop : op.isMultiplicative = true)
    {bound : Nat} (hbound : 0 < bound) :
    ∃ x y z, op.apply x y = some z ∧ op.apply 0 y = some 0 ∧ Apart bound z x := by
  cases op with
  | add | sub => cases hop
  | mul =>
    refine ⟨bound, 3, bound * 3, rfl, rfl, ?_⟩
    unfold Apart
    omega
  | div =>
    refine ⟨bound * 3, 3, bound, ?_, rfl, ?_⟩
    · rw [apply, if_neg (by decide), Int.mul_tdiv_cancel _ (by decide)]
    · unfold Apart
      omega
  | mod =>
    have hne : ((2 * bound + 1 : Nat) : Int) ≠ 0 := by omega
    refine ⟨(2 * bound + 1 + bound : Nat), (2 * bound + 1 : Nat), bound, ?_, ?_, ?_⟩
    · rw [apply, if_neg hne, ← Int.ofNat_tmod, Nat.add_mod_left, Nat.mod_eq_of_lt (by omega)]
    · rw [apply, if_neg hne, Int.zero_tmod]
    · unfold Apart
      omega

def Factor.Writable (f : Factor) : Prop := ∀ t ∈ f.tokens, t.WellFormed

/-- Its tokens can stand in a source. -/
def Expr.Writable (e : Expr) : Prop := ∀ t ∈ e.tokens, t.WellFormed

theorem Expr.Writable.group {e : Expr} (h : e.Writable) (s : Span) :
    (Factor.group e s).Writable := by
  simp only [Factor.Writable, Factor.tokens_group, List.forall_mem_cons, List.forall_mem_append]
  exact ⟨trivial, h, trivial, by simp⟩

theorem Expr.Writable.binary {left : Expr} {right : Factor} (hleft : left.Writable)
    (op : Arithmetic) (hright : right.Writable) : (Expr.binary left op right).Writable := by
  simp only [Expr.Writable, Expr.tokens_binary, List.forall_mem_cons, List.forall_mem_append]
  exact ⟨hleft, trivial, hright⟩

section

variable {store : String → Int}

/-- With other operands, the factor has the value `p` and C computes `q`. -/
def Factor.Can (store : String → Int) (f : Factor) (p q : Int) : Prop :=
  ∃ f' : Factor, f'.shape = f.shape ∧ f'.Writable ∧ f'.value store = some p ∧
    f'.grouped.value store = some q

def Expr.Can (store : String → Int) (e : Expr) (p q : Int) : Prop :=
  ∃ e' : Expr, e'.shape = e.shape ∧ e'.Writable ∧ e'.value store = some p ∧
    e'.grouped.value store = some q

theorem Factor.Can.group {e : Expr} {p q : Int} (h : e.Can store p q) (s : Span) :
    (Factor.group e s).Can store p q := by
  obtain ⟨e', hshape, hw, hp, hq⟩ := h
  refine ⟨.group e' s, ?_, hw.group s, ?_, ?_⟩
  · rw [Factor.shape, Factor.shape, hshape]
  · rw [Factor.value, hp]
  · rw [Factor.grouped]
    exact hq

theorem Expr.Can.factor {f : Factor} {p q : Int} (h : f.Can store p q) :
    (Expr.factor f).Can store p q := by
  obtain ⟨f', hshape, hw, hp, hq⟩ := h
  refine ⟨.factor f', ?_, hw, ?_, ?_⟩
  · rw [Expr.shape, Expr.shape, hshape]
  · rw [Expr.value, hp]
  · rw [Expr.grouped_factor, hq]

/-- Operands are combined as they stand where the order of the operators allows it. -/
theorem Expr.Can.binary {left : Expr} {right : Factor} {op : Arithmetic} {p q p' q' a b : Int}
    (h : op.isMultiplicative = true → left.shape.isProduct = true)
    (hleft : left.Can store p q) (hright : right.Can store p' q')
    (ha : op.apply p p' = some a) (hb : op.apply q q' = some b) :
    (Expr.binary left op right).Can store a b := by
  obtain ⟨left', hls, hlw, hp, hq⟩ := hleft
  obtain ⟨right', hrs, hrw, hp', hq'⟩ := hright
  refine ⟨.binary left' op right', ?_, hlw.binary op hrw, ?_, ?_⟩
  · rw [Expr.shape, Expr.shape, hls, hrs]
  · rw [Expr.value, hp, hp', Arithmetic.combine_some, ha]
  · rw [← hls] at h
    rw [Expr.grouped_binary right' h, Grouping.value, hq, hq', Arithmetic.combine_some, hb]

/-- A neutral right operand keeps the values, also where C takes it for an operand of
the last summand only. -/
theorem Expr.Can.keep {left : Expr} {right : Factor} {p q : Int} (op : Arithmetic)
    (hleft : left.Can store p q) (hright : ∀ z, right.Can store z z) :
    (Expr.binary left op right).Can store p q := by
  obtain ⟨left', hls, hlw, hp, hq⟩ := hleft
  obtain ⟨t, ht⟩ := Waiting.value_of_join hq
  obtain ⟨right', hrs, hrw, hp', hq'⟩ :=
    hright (op.neutral (p.natAbs + q.natAbs + t.natAbs))
  refine ⟨.binary left' op right', ?_, hlw.binary op hrw, ?_, ?_⟩
  · rw [Expr.shape, Expr.shape, hls, hrs]
  · rw [Expr.value, hp, hp', Arithmetic.combine_some, op.apply_neutral (by omega)]
  · cases hop : op.isMultiplicative with
    | true =>
      rw [← hq, Expr.grouped, Expr.parts_multiply left' right' hop]
      apply Waiting.join_congr
      rw [Grouping.value, ht, hq', Arithmetic.combine_some, op.apply_neutral (by omega)]
    | false =>
      rw [Expr.grouped_binary right' (by simp [hop]), Grouping.value, hq, hq',
        Arithmetic.combine_some, op.apply_neutral (by omega)]

/-- Every integer is the value of a name. -/
def Plenty (store : String → Int) : Prop := ∀ z, ∃ x, (Token.id x).WellFormed ∧ store x = z

mutual

theorem Factor.can (hstore : Plenty store) (f : Factor) (z : Int) : f.Can store z z := by
  cases f with
  | number _ s | var _ s =>
    obtain ⟨x, hx, rfl⟩ := hstore z
    exact ⟨.var x s, by simp only [Factor.shape], List.forall_mem_singleton.mpr hx,
      by rw [Factor.value], by rw [Factor.grouped, Grouping.value]⟩
  | group e s => exact .group (Expr.can hstore e z) s

/-- Every value can be reached, by C as well. -/
theorem Expr.can (hstore : Plenty store) (e : Expr) (z : Int) :
    e.Can store z z := by
  cases e with
  | factor f => exact .factor (Factor.can hstore f z)
  | binary left op right => exact (Expr.can hstore left z).keep op (Factor.can hstore right)

end

/-- With other operands, the expression has the value `p`, and C adds a last summand
that is zero to the value `q`. -/
def Expr.Waits (store : String → Int) (e : Expr) (p q : Int) : Prop :=
  ∃ (e' : Expr) (l t : Grouping) (o : Arithmetic), e'.shape = e.shape ∧ e'.Writable ∧
    e'.value store = some p ∧ e'.parts = (some (l, o), t) ∧ o.isMultiplicative = false ∧
      l.value store = some q ∧ t.value store = some 0

theorem Expr.Waits.can {e : Expr} {p q : Int} (h : e.Waits store p q) : e.Can store p q := by
  obtain ⟨e', l, t, o, hshape, hw, hp, hparts, ho, hl, ht⟩ := h
  refine ⟨e', hshape, hw, hp, ?_⟩
  rw [Expr.grouped, hparts, Waiting.join, Grouping.value, hl, ht, Arithmetic.combine_some]
  cases o with
  | add | sub => simp [Arithmetic.apply]
  | mul | div | mod => cases ho

/-- C multiplies the zero only. -/
theorem Expr.Waits.multiply {left : Expr} {right : Factor} {op : Arithmetic} {p q y a : Int}
    (hleft : left.Waits store p q) (hop : op.isMultiplicative = true)
    (hright : right.Can store y y) (ha : op.apply p y = some a)
    (hzero : op.apply 0 y = some 0) : (Expr.binary left op right).Waits store a q := by
  obtain ⟨left', l, t, o, hls, hlw, hp, hparts, ho, hl, ht⟩ := hleft
  obtain ⟨right', hrs, hrw, hy, hy'⟩ := hright
  refine ⟨.binary left' op right', l, .binary op t right'.grouped, o, ?_, hlw.binary op hrw,
    ?_, ?_, ho, hl, ?_⟩
  · rw [Expr.shape, Expr.shape, hls, hrs]
  · rw [Expr.value, hp, hy, Arithmetic.combine_some, ha]
  · rw [Expr.parts_multiply left' right' hop, hparts]
  · rw [Grouping.value, ht, hy', Arithmetic.combine_some, hzero]

theorem Expr.waits (hstore : Plenty store) {e : Expr}
    (h : e.shape.isProduct = false) (z : Int) : e.Waits store z z := by
  cases e with
  | factor f => cases f <;> simp [Expr.shape, Factor.shape, Shape.isProduct] at h
  | binary left op right =>
    cases hop : op.isMultiplicative with
    | true =>
      have hleft : left.shape.isProduct = false := by
        simpa [Expr.shape, Shape.isProduct, hop] using h
      exact (Expr.waits hstore hleft z).multiply hop (Factor.can hstore right _)
        (op.apply_neutral (Nat.le_refl _)) (op.apply_neutral (Nat.zero_le _))
    | false =>
      obtain ⟨left', hls, hlw, hp, hq⟩ := Expr.can hstore left z
      obtain ⟨right', hrs, hrw, hp', hq'⟩ := Factor.can hstore right 0
      refine ⟨.binary left' op right', left'.grouped, right'.grouped, op, ?_, hlw.binary op hrw,
        ?_, Expr.parts_add left' right' hop, hop, hq, hq'⟩
      · rw [Expr.shape, Expr.shape, hls, hrs]
      · rw [Expr.value, hp, hp', Arithmetic.combine_some]
        cases op with
        | add | sub => simp [Arithmetic.apply]
        | mul | div | mod => cases hop

mutual

theorem Factor.differs (hstore : Plenty store) {f : Factor}
    (h : f.shape.ordered = false) {bound : Nat} (hbound : 0 < bound) :
    ∃ p q, Apart bound p q ∧ f.Can store p q := by
  cases f with
  | number n s | var x s => simp [Factor.shape, Shape.ordered] at h
  | group e s =>
    rw [Factor.shape, Shape.ordered] at h
    obtain ⟨p, q, hpq, hcan⟩ := Expr.differs hstore h hbound
    exact ⟨p, q, hpq, .group hcan s⟩

/-- Operators that are not ordered have operands at which the two values are far from
each other. -/
theorem Expr.differs (hstore : Plenty store) {e : Expr}
    (h : e.shape.ordered = false) {bound : Nat} (hbound : 0 < bound) :
    ∃ p q, Apart bound p q ∧ e.Can store p q := by
  cases e with
  | factor f =>
    rw [Expr.shape] at h
    obtain ⟨p, q, hpq, hcan⟩ := Factor.differs hstore h hbound
    exact ⟨p, q, hpq, .factor hcan⟩
  | binary left op right =>
    by_cases hop : op.isMultiplicative = true → left.shape.isProduct = true
    · cases hleft : left.shape.ordered with
      | false =>
        obtain ⟨p, q, hpq, hcan⟩ := Expr.differs hstore hleft hbound
        exact ⟨p, q, hpq, hcan.keep op (Factor.can hstore right)⟩
      | true =>
        have hright : right.shape.ordered = false := by
          rw [Bool.eq_false_iff] at h ⊢
          intro hright
          rw [Expr.shape, Ne, Shape.ordered_binary_iff] at h
          exact h ⟨hop, hleft, hright⟩
        obtain ⟨p, q, hpq, hcan⟩ := Factor.differs hstore hright (Nat.succ_pos bound)
        obtain ⟨x, a, b, ha, hb, hab⟩ := hpq.exists_left op
        exact ⟨a, b, hab, .binary hop (Expr.can hstore left x) hcan ha hb⟩
    · -- C takes the factor for an operand of the last summand only
      obtain ⟨hop, hsum⟩ : op.isMultiplicative = true ∧ left.shape.isProduct = false := by
        simpa using hop
      obtain ⟨x, y, z, hz, hzero, hzx⟩ := Arithmetic.exists_apart hop hbound
      have hwaits := (Expr.waits hstore hsum x).multiply hop (Factor.can hstore right y) hz hzero
      exact ⟨z, x, hzx, hwaits.can⟩

end

end

/-! ## The exact condition -/

/-- Names are numbered by their lengths. -/
def countingStore (x : String) : Int :=
  if x.length % 2 = 0 then -(x.length / 2) else x.length / 2

/-- A name of `n + 1` letters. -/
def longName (n : Nat) : String := String.ofList ('z' :: List.replicate n 'z')

theorem longName_ne {n : Nat} {x : String} (h : x.toList.head? ≠ some 'z') : longName n ≠ x := by
  rintro rfl
  simp [longName] at h

theorem longName_wellFormed (n : Nat) : (Token.id (longName n)).WellFormed := by
  have hkeyword : Keyword.ofWord? (longName n) = none := by
    refine List.find?_eq_none.mpr fun k _ hk => ?_
    rw [decide_eq_true_eq] at hk
    exact longName_ne (by cases k <;> decide) hk.symm
  refine ⟨⟨'z', List.replicate n 'z', by simp [longName], by decide, ?_⟩, ?_⟩
  · intro d hd
    rw [List.eq_of_mem_replicate hd]
    decide
  · rw [Token.ofWord, if_neg (longName_ne (by decide)), if_neg (longName_ne (by decide)), hkeyword]

theorem countingStore_plenty : Plenty countingStore := by
  intro z
  rcases Int.le_total 0 z with hz | hz
  · refine ⟨longName (2 * z.natAbs), longName_wellFormed _, ?_⟩
    simp only [countingStore, longName, String.length_ofList, List.length_cons,
      List.length_replicate]
    split <;> omega
  · refine ⟨longName (2 * z.natAbs - 1), longName_wellFormed _, ?_⟩
    simp only [countingStore, longName, String.length_ofList, List.length_cons,
      List.length_replicate]
    split <;> omega

/-- When no `*`, `/` or `%` stands behind a `+` or `-` of its chain, C gives an
expression the value that it has from left to right, or leaves both undefined. With
the operators in any other order, there are operands for them at which C gets
another number. -/
theorem Expr.value_kept_exactly_when_ordered (e : Expr) :
    (e.shape.ordered = true → ∀ (store : String → Int) (v : Option Int),
      Evaluates store e.emitted v ↔ v = e.value store) ∧
    (e.shape.ordered = false → ∃ e' : Expr, e'.shape = e.shape ∧ e'.Writable ∧
      ∃ (store : String → Int) (p q : Int), p ≠ q ∧ e'.value store = some p ∧
        ∀ v, Evaluates store e'.emitted v ↔ v = some q) := by
  constructor
  · intro h store v
    rw [Expr.evaluates_emitted_iff, Expr.grouped_value store h]
  · intro h
    obtain ⟨p, q, hpq, e', hshape, hw, hp, hq⟩ :=
      Expr.differs countingStore_plenty h Nat.one_pos
    refine ⟨e', hshape, hw, countingStore, p, q, hpq.ne, hp, fun v => ?_⟩
    rw [Expr.evaluates_emitted_iff, hq]

/-- A product behind a sum. -/
def Source.mixedChain : Source where
  name := "mixed"
  text := "let x = 1 + 2 * 3;"

/-- Whether a program declares one name, with the chain `1 + 2 * 3` as its value. -/
def Reading.isMixedChain : Reading Program → Bool
  | .ok ⟨_, [.declare _ (some (.binary (.binary (.factor (.number a _)) .add (.number b _))
      .mul (.number c _)))]⟩ => a.value == 1 && b.value == 2 && c.value == 3
  | _ => false

/-- It is 9 from left to right, and 7 in C. -/
theorem Source.mixedChain_values :
    ∃ p x e, mixedChain.parse = .ok p ∧ p.statements = [.declare x (some e)] ∧
      ∀ store, e.value store = some 9 ∧
        ∀ v, Evaluates store e.emitted v ↔ v = some 7 := by
  have hparse : Reading.isMixedChain mixedChain.parse = true := by decide +kernel
  unfold Reading.isMixedChain at hparse
  split at hparse
  next names x a _ b _ c _ hp =>
    obtain ⟨⟨ha, hb⟩, hc⟩ : (a.value = 1 ∧ b.value = 2) ∧ c.value = 3 := by simpa using hparse
    refine ⟨_, x, _, hp, rfl, fun store => ⟨?_, fun v => ?_⟩⟩
    · simp [Expr.value, Factor.value, ha, hb, hc, Arithmetic.apply]
    · rw [Expr.evaluates_emitted_iff]
      simp only [Expr.grouped, Expr.parts, Factor.grouped, Arithmetic.isMultiplicative,
        if_true, Bool.false_eq_true, if_false, Waiting.join, Grouping.value,
        decimalValue_toString, ha, hb, hc]
      rfl
  next => cases hparse

end BareBones
