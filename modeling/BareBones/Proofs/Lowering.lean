import BareBones.Proofs.Execution
import BareBones.Proofs.Grammar

/-!
The C statements of a program do what the program does. A C state is a state of
the program's own variables with further names around it (`State.overlay`), and
the C statements run exactly as the program does on the inner part and leave the
names around it alone (`Lowers`). The one case that is not immediate is a counted
loop, where as many rounds as the bound says are rounds as long as a counter is
below a limit (`Lowers.countUp`).
-/

namespace BareBones

/-! ## States and the names around them -/

namespace State

variable {names : List String} {s a b : State} {x y : String} {v w : Int}

@[simp] theorem set_store_self : (s.set x v).store x = v := by simp [set]

@[simp] theorem set_store_of_ne (h : y ≠ x) : (s.set x v).store y = s.store y := by simp [set, h]

@[simp] theorem set_set : (s.set x v).set x w = s.set x w := by
  refine State.ext (funext fun y => ?_) rfl rfl
  by_cases h : y = x <;> simp [set, h]

theorem set_store : s.set x (s.store x) = s := by
  refine State.ext (funext fun y => ?_) rfl rfl
  by_cases h : y = x <;> simp [set, h]

/-- All names but `names` are unset. -/
def UserOnly (names : List String) (s : State) : Prop := ∀ x, x ∉ names → s.store x = 0

/-- The state `inner` of the variables `names`, inside of `outer`. -/
def overlay (names : List String) (outer inner : State) : State :=
  { inner with store := fun x => if x ∈ names then inner.store x else outer.store x }

theorem user_userOnly : (s.user names).UserOnly names := by
  intro x hx
  simp [user, hx]

theorem UserOnly.set (ha : a.UserOnly names) (h : x ∈ names) : (a.set x v).UserOnly names := by
  intro y hy
  have hne : y ≠ x := fun heq => hy (heq ▸ h)
  rw [set_store_of_ne hne]
  exact ha y hy

theorem overlay_store_of_not_mem (h : x ∉ names) : (s.overlay names a).store x = s.store x := by
  simp [overlay, h]

@[simp] theorem overlay_user : s.overlay names (s.user names) = s := by
  refine State.ext (funext fun x => ?_) rfl rfl
  by_cases h : x ∈ names <;> simp [overlay, user, h]

theorem user_overlay (ha : a.UserOnly names) : (s.overlay names a).user names = a := by
  refine State.ext (funext fun x => ?_) rfl rfl
  by_cases h : x ∈ names
  · simp [overlay, user, h]
  · simp [user, h, ha x h]

@[simp] theorem overlay_overlay :
    (s.overlay names a).overlay names b = s.overlay names b := by
  refine State.ext (funext fun x => ?_) rfl rfl
  by_cases h : x ∈ names <;> simp [overlay, h]

theorem user_set_of_not_mem (h : x ∉ names) : (s.set x v).user names = s.user names := by
  refine State.ext (funext fun y => ?_) rfl rfl
  by_cases hy : y ∈ names
  · have hne : y ≠ x := fun heq => h (heq ▸ hy)
    simp [user, hy, hne]
  · simp [user, hy]

theorem overlay_set_of_not_mem (h : x ∉ names) :
    (s.set x v).overlay names a = (s.overlay names a).set x v := by
  refine State.ext (funext fun y => ?_) rfl rfl
  by_cases hy : y = x
  · subst hy
    simp [overlay, h]
  · simp [overlay, hy]

theorem overlay_set_user (h : x ∈ names) :
    s.overlay names ((s.user names).set x v) = s.set x v := by
  refine State.ext (funext fun y => ?_) rfl rfl
  by_cases hy : y = x
  · subst hy
    simp [overlay, h]
  · by_cases hn : y ∈ names <;> simp [overlay, user, hy, hn]

end State

/-! ## Loops -/

theorem While.iff_of_false {test : State → Option Bool} {body : State → State → Prop} {s t : State}
    (h : test s = some false) : While test body s t ↔ t = s := by
  constructor
  · rintro ⟨hrounds, -⟩
    rcases hrounds.cases_head with rfl | ⟨u, hu, -⟩
    · rfl
    · have hcontra := h.symm.trans hu.1
      cases hcontra
  · rintro rfl
    exact ⟨.refl, h⟩

theorem While.iff_of_true {test : State → Option Bool} {body : State → State → Prop} {s t : State}
    (h : test s = some true) :
    While test body s t ↔ ∃ u, body s u ∧ While test body u t := by
  constructor
  · rintro ⟨hrounds, hend⟩
    rcases hrounds.cases_head with rfl | ⟨u, hu, hrest⟩
    · rw [h] at hend
      cases hend
    · exact ⟨u, hu.2, hrest, hend⟩
  · rintro ⟨u, hu, hrest, hend⟩
    exact ⟨.head ⟨h, hu⟩ hrest, hend⟩

/-! ## Runs of both sides -/

/-- `lowered` does to the variables `names` what `source` does, and leaves all other
names alone. -/
structure Lowers (names : List String) (source lowered : State → State → Prop) : Prop where
  /-- No other names get values on the source side. -/
  keeps : ∀ {a b}, a.UserOnly names → source a b → b.UserOnly names
  iff : ∀ {s t}, lowered s t ↔ ∃ b, source (s.user names) b ∧ t = s.overlay names b

namespace Lowers

variable {names : List String} {S S' T T' : State → State → Prop}

theorem of_user (h : Lowers names S T) {s t : State} (hst : T s t) :
    S (s.user names) (t.user names) ∧ t = s.overlay names (t.user names) := by
  obtain ⟨b, hb, rfl⟩ := h.iff.mp hst
  have hb' : b.UserOnly names := h.keeps State.user_userOnly hb
  rw [State.user_overlay hb']
  exact ⟨hb, rfl⟩

theorem eq : Lowers names Eq Eq where
  keeps ha hab := hab ▸ ha
  iff {s t} := by
    constructor
    · rintro rfl
      exact ⟨s.user names, rfl, State.overlay_user.symm⟩
    · rintro ⟨b, rfl, rfl⟩
      exact State.overlay_user.symm

theorem seq (h : Lowers names S T) (h' : Lowers names S' T') :
    Lowers names (Seq S S') (Seq T T') where
  keeps := by
    rintro a b ha ⟨c, hac, hcb⟩
    exact h'.keeps (h.keeps ha hac) hcb
  iff {s t} := by
    constructor
    · rintro ⟨u, hsu, hut⟩
      obtain ⟨hs, hu⟩ := h.of_user hsu
      obtain ⟨b, hb, rfl⟩ := h'.iff.mp hut
      refine ⟨b, ⟨_, hs, hb⟩, ?_⟩
      rw [hu, State.overlay_overlay]
    · rintro ⟨b, ⟨a, ha, hab⟩, rfl⟩
      have hu : (s.overlay names a).user names = a :=
        State.user_overlay (h.keeps State.user_userOnly ha)
      refine ⟨s.overlay names a, h.iff.mpr ⟨a, ha, rfl⟩, h'.iff.mpr ⟨b, hu.symm ▸ hab, ?_⟩⟩
      rw [State.overlay_overlay]

theorem branch {p q : State → Option Bool} (hp : ∀ s, q s = p (s.user names))
    (h : Lowers names S T) (h' : Lowers names S' T') :
    Lowers names (Branch p S S') (Branch q T T') where
  keeps := by
    rintro a b ha (⟨-, hab⟩ | ⟨-, hab⟩)
    · exact h.keeps ha hab
    · exact h'.keeps ha hab
  iff {s t} := by
    constructor
    · rintro (⟨hq, hst⟩ | ⟨hq, hst⟩)
      · obtain ⟨b, hb, ht⟩ := h.iff.mp hst
        exact ⟨b, Or.inl ⟨hp s ▸ hq, hb⟩, ht⟩
      · obtain ⟨b, hb, ht⟩ := h'.iff.mp hst
        exact ⟨b, Or.inr ⟨hp s ▸ hq, hb⟩, ht⟩
    · rintro ⟨b, ⟨hq, hb⟩ | ⟨hq, hb⟩, ht⟩
      · exact Or.inl ⟨(hp s).trans hq, h.iff.mpr ⟨b, hb, ht⟩⟩
      · exact Or.inr ⟨(hp s).trans hq, h'.iff.mpr ⟨b, hb, ht⟩⟩

theorem round {p q : State → Option Bool} (hp : ∀ s, q s = p (s.user names))
    (h : Lowers names S T) : Lowers names (Round p S) (Round q T) where
  keeps ha hab := h.keeps ha hab.2
  iff {s t} := by
    simp only [Round, hp s, h.iff, and_assoc, exists_and_left]

/-- A run of `lowered` from within `s` is one of `source`. -/
theorem overlay_iff (h : Lowers names S T) {s : State} {a : State} (ha : a.UserOnly names)
    {t : State} : T (s.overlay names a) t ↔ ∃ b, S a b ∧ t = s.overlay names b := by
  rw [h.iff, State.user_overlay ha]
  simp only [State.overlay_overlay]

theorem rounds (h : Lowers names S T) :
    Lowers names (Relation.ReflTransGen S) (Relation.ReflTransGen T) := by
  have hkeeps : ∀ {a b}, a.UserOnly names → Relation.ReflTransGen S a b → b.UserOnly names := by
    intro a b ha hab
    induction hab with
    | refl => exact ha
    | tail _ hbc ih => exact h.keeps ih hbc
  refine ⟨hkeeps, fun {s t} => ⟨fun hst => ?_, ?_⟩⟩
  · induction hst with
    | refl => exact ⟨s.user names, .refl, State.overlay_user.symm⟩
    | tail _ hut ih =>
      obtain ⟨a, ha, rfl⟩ := ih
      obtain ⟨b, hab, rfl⟩ := (h.overlay_iff (hkeeps State.user_userOnly ha)).mp hut
      exact ⟨b, ha.tail hab, rfl⟩
  · rintro ⟨b, hb, rfl⟩
    induction hb with
    | refl => rw [State.overlay_user]
    | tail ha hab ih =>
      exact ih.tail ((h.overlay_iff (hkeeps State.user_userOnly ha)).mpr ⟨_, hab, rfl⟩)

theorem whileTrue {p q : State → Option Bool} (hp : ∀ s, q s = p (s.user names))
    (h : Lowers names S T) : Lowers names (While p S) (While q T) := by
  have hr := (h.round hp).rounds
  refine ⟨fun ha hab => hr.keeps ha hab.1, fun {s t} => ?_⟩
  constructor
  · rintro ⟨hst, hend⟩
    obtain ⟨hb, ht⟩ := hr.of_user hst
    exact ⟨_, ⟨hb, hp t ▸ hend⟩, ht⟩
  · rintro ⟨b, ⟨hb, hend⟩, rfl⟩
    refine ⟨hr.iff.mpr ⟨b, hb, rfl⟩, ?_⟩
    rw [hp, State.user_overlay (hr.keeps State.user_userOnly hb)]
    exact hend

theorem times_keeps (h : Lowers names S T) {n : Nat} {a b : State} (ha : a.UserOnly names)
    (hab : Times S n a b) : b.UserOnly names := by
  induction n generalizing a with
  | zero => exact hab ▸ ha
  | succ n ih =>
    obtain ⟨c, hac, hcb⟩ := hab
    exact ih (h.keeps ha hac) hcb

/-- Counting up to a limit that the rounds leave alone makes one round for each
number from the counter to the limit. -/
theorem countUp (h : Lowers names S T) {counter : String} (hc : counter ∉ names)
    {limit : C.Limit} (hl : ∀ s a v,
      limit.value ((State.overlay names s a).set counter v).store = limit.value s.store)
    {n : Nat} {s t : State} (hn : (limit.value s.store - s.store counter).toNat = n) :
    While (limit.test counter) (Seq T (C.Increments counter)) s t ↔
      ∃ b, Times S n (s.user names) b ∧
        t = (s.overlay names b).set counter (s.store counter + n) := by
  induction n generalizing s with
  | zero =>
    have htest : limit.test counter s = some false := by
      simp only [C.Limit.test, Option.some.injEq, decide_eq_false_iff_not]
      omega
    rw [While.iff_of_false htest]
    simp [Times, State.set_store]
  | succ n ih =>
    have htest : limit.test counter s = some true := by
      simp only [C.Limit.test, Option.some.injEq, decide_eq_true_eq]
      omega
    rw [While.iff_of_true htest]
    -- the state behind the first round, for a body that ends in `a`
    have hround : ∀ a, (s.overlay names a).store counter = s.store counter := fun a =>
      State.overlay_store_of_not_mem hc
    have hnext (a : State) (ha : a.UserOnly names) :
        While (limit.test counter) (Seq T (C.Increments counter))
            ((s.overlay names a).set counter (s.store counter + 1)) t ↔
          ∃ b, Times S n a b ∧
            t = (s.overlay names b).set counter (s.store counter + (n + 1 : Nat)) := by
      rw [ih]
      · rw [State.user_set_of_not_mem hc, State.user_overlay ha, State.set_store_self]
        simp only [State.overlay_set_of_not_mem hc, State.overlay_overlay, State.set_set]
        have hsum : s.store counter + 1 + (n : Int) = s.store counter + (n + 1 : Nat) := by omega
        rw [hsum]
      · rw [hl, State.set_store_self]
        omega
    constructor
    · rintro ⟨u, ⟨v, hsv, rfl⟩, hrest⟩
      obtain ⟨a, ha, rfl⟩ := h.iff.mp hsv
      rw [hround] at hrest
      obtain ⟨b, hab, ht⟩ := (hnext a (h.keeps State.user_userOnly ha)).mp hrest
      exact ⟨b, ⟨a, ha, hab⟩, ht⟩
    · rintro ⟨b, ⟨a, ha, hab⟩, ht⟩
      refine ⟨_, ⟨s.overlay names a, h.iff.mpr ⟨a, ha, rfl⟩, rfl⟩, ?_⟩
      rw [hround]
      exact (hnext a (h.keeps State.user_userOnly ha)).mpr ⟨b, hab, ht⟩

end Lowers

/-! ## The variables of a loop -/

/-- No variable of the program has the name of a counter or of a limit. -/
def Unclaimed (names : List String) : Prop :=
  ∀ k, counterName k ∉ names ∧ limitName k ∉ names

theorem counterName_ne_limitName (k : Nat) : counterName k ≠ limitName k := by
  intro h
  have hlen := congrArg (fun x => x.toList.length) h
  simp [limitName] at hlen

/-- What entering and leaving loop number `k` come to: the counter starts at zero,
the limit has the value of the bound and keeps it, and no trace is left. -/
structure LoopVariables (names : List String) (counter : String) (b : Bound)
    (limit : C.Limit) : Prop where
  counter_notin : counter ∉ names
  enter_counter : ∀ s, (limit.enter counter s).store counter = 0
  enter_value : ∀ s, limit.value (limit.enter counter s).store = b.value (s.user names).store
  enter_user : ∀ s, (limit.enter counter s).user names = s.user names
  value_stable : ∀ s a v,
    limit.value ((State.overlay names s a).set counter v).store = limit.value s.store
  leave_eq : ∀ s a v,
    limit.leave counter s (((limit.enter counter s).overlay names a).set counter v) =
      s.overlay names a

theorem Bound.loopVariables {names : List String} (hn : Unclaimed names) (k : Nat) (b : Bound)
    (hb : ∀ x, b = .var x → x ∈ names) :
    LoopVariables names (counterName k) b (b.limit k) := by
  obtain ⟨hc, hl⟩ := hn k
  cases b with
  | number n =>
    refine ⟨hc, fun s => State.set_store_self, fun s => rfl,
      fun s => State.user_set_of_not_mem hc, fun s a v => rfl, fun s a v => ?_⟩
    simp only [Bound.limit, C.Limit.leave, C.Limit.enter, State.overlay_set_of_not_mem hc,
      State.set_set]
    rw [← State.overlay_store_of_not_mem (s := s) (a := a) hc, State.set_store]
  | var x =>
    have hx : x ∈ names := hb x rfl
    have hxc : x ≠ counterName k := fun h => hc (h ▸ hx)
    have hne := counterName_ne_limitName k
    refine ⟨hc, fun s => ?_, fun s => ?_, fun s => ?_, fun s a v => ?_, fun s a v => ?_⟩
    · simp [Bound.limit, C.Limit.enter, hne]
    · simp [Bound.limit, C.Limit.enter, C.Limit.value, Bound.value, State.user, hx, hxc]
    · simp only [Bound.limit, C.Limit.enter, State.user_set_of_not_mem hc,
        State.user_set_of_not_mem hl]
    · simp only [Bound.limit, C.Limit.value]
      rw [State.set_store_of_ne hne.symm, State.overlay_store_of_not_mem hl]
    · simp only [Bound.limit, C.Limit.leave, C.Limit.enter, State.overlay_set_of_not_mem hc,
        State.overlay_set_of_not_mem hl]
      refine State.ext (funext fun y => ?_) rfl rfl
      by_cases hyl : y = limitName k
      · subst hyl
        rw [State.set_store_self, State.overlay_store_of_not_mem hl]
      · by_cases hyc : y = counterName k
        · subst hyc
          simp [hne, State.overlay_store_of_not_mem hc]
        · simp [hyl, hyc]

/-- On entry the counter is as many rounds below the limit as the bound says. -/
theorem LoopVariables.rounds_on_entry {names : List String} {counter : String} {b : Bound}
    {limit : C.Limit} (hv : LoopVariables names counter b limit) (s : State) :
    (limit.value (limit.enter counter s).store - (limit.enter counter s).store counter).toNat =
      (b.value (s.user names).store).toNat := by
  rw [hv.enter_value, hv.enter_counter, Int.sub_zero]

theorem Lowers.dotimes {names : List String} {S T : State → State → Prop} {counter : String}
    {b : Bound} {limit : C.Limit} (h : Lowers names S T)
    (hv : LoopVariables names counter b limit) :
    Lowers names (fun s => Times S (b.value s.store).toNat s) fun s t =>
      ∃ u, While (limit.test counter) (Seq T (C.Increments counter)) (limit.enter counter s) u ∧
        t = limit.leave counter s u := by
  refine ⟨fun ha hab => h.times_keeps ha hab, fun {s t} => ?_⟩
  simp only [h.countUp hv.counter_notin hv.value_stable (hv.rounds_on_entry s), hv.enter_user]
  constructor
  · rintro ⟨u, ⟨a, ha, rfl⟩, rfl⟩
    exact ⟨a, ha, hv.leave_eq s a _⟩
  · rintro ⟨a, ha, rfl⟩
    exact ⟨_, ⟨a, ha, rfl⟩, (hv.leave_eq s a _).symm⟩

/-! ## Statements -/

section

variable {names : List String} (m : Meaning)

theorem Lowers.assign {x : String} (hx : x ∈ names) (e : Expr) :
    Lowers names (fun s t => m.Assigns x e s s t) fun s t => m.Assigns x e (s.user names) s t where
  keeps := by
    rintro a b ha ⟨v, -, rfl⟩
    exact ha.set hx
  iff {s t} := by
    constructor
    · rintro ⟨v, hv, rfl⟩
      exact ⟨_, ⟨v, hv, rfl⟩, (State.overlay_set_user hx).symm⟩
    · rintro ⟨_, ⟨v, hv, rfl⟩, rfl⟩
      exact ⟨v, hv, State.overlay_set_user hx⟩

theorem Lowers.print (format : String) (args : List String) :
    Lowers names (fun s t => m.Prints format args s s t)
      fun s t => m.Prints format args (s.user names) s t where
  keeps := by
    rintro a b ha rfl
    exact ha
  iff {s t} := by
    have hstore := congrArg State.store (@State.overlay_user names s)
    constructor
    · rintro rfl
      exact ⟨_, rfl, State.ext hstore.symm rfl rfl⟩
    · rintro ⟨_, rfl, rfl⟩
      exact State.ext hstore rfl rfl

theorem Lowers.read {x : String} (hx : x ∈ names) :
    Lowers names (fun s t => m.Reads x s s t) fun s t => m.Reads x (s.user names) s t where
  keeps := by
    rintro a b ha ⟨v, rest, -, rfl⟩
    exact ha.set hx
  iff {s t} := by
    have hstore (v : Int) := congrArg State.store (@State.overlay_set_user names s x v hx)
    constructor
    · rintro ⟨v, rest, hv, rfl⟩
      exact ⟨_, ⟨v, rest, hv, rfl⟩, State.ext (hstore v).symm rfl rfl⟩
    · rintro ⟨_, ⟨v, rest, hv, rfl⟩, rfl⟩
      exact ⟨v, rest, hv, State.ext (hstore v) rfl rfl⟩

end

theorem Seq.eq_right (R : State → State → Prop) : Seq R Eq = R := by
  funext s t
  simp [Seq]

theorem Seq.assoc (R S T : State → State → Prop) : Seq (Seq R S) T = Seq R (Seq S T) := by
  funext s t
  refine propext ⟨?_, ?_⟩
  · rintro ⟨v, ⟨u, hsu, huv⟩, hvt⟩
    exact ⟨u, hsu, v, huv, hvt⟩
  · rintro ⟨u, hsu, v, huv, hvt⟩
    exact ⟨v, ⟨u, hsu, huv⟩, hvt⟩

namespace C

theorem Statement.runsAll_single (m : Meaning) (names : List String) (s : Statement) :
    Statement.RunsAll m names [s] = s.Runs m names := by
  rw [Statement.RunsAll, Statement.RunsAll, Seq.eq_right]

theorem Statement.runsAll_append (m : Meaning) (names : List String) (ss rest : List Statement) :
    Statement.RunsAll m names (ss ++ rest) =
      Seq (Statement.RunsAll m names ss) (Statement.RunsAll m names rest) := by
  induction ss with
  | nil =>
    funext s t
    simp [Statement.RunsAll, Seq]
  | cons s ss ih => rw [List.cons_append, Statement.RunsAll, ih, Statement.RunsAll, Seq.assoc]

end C

/-- All names among the tokens are in `names`. -/
def NamesIn (names : List String) (w : List Token) : Prop := ∀ x, Token.id x ∈ w → x ∈ names

namespace NamesIn

variable {names : List String} {c : Condition} {b : Located Bound} {s : Statement}
  {body otherwise rest : List Statement}

theorem ifThen (h : NamesIn names (Statement.ifThen c body).tokens) :
    NamesIn names (Statement.tokensAll body) := by
  intro x hx
  exact h x (by simp [Statement.tokens, braced, hx])

theorem ifElse (h : NamesIn names (Statement.ifElse c body otherwise).tokens) :
    NamesIn names (Statement.tokensAll body) ∧ NamesIn names (Statement.tokensAll otherwise) := by
  refine ⟨fun x hx => h x ?_, fun x hx => h x ?_⟩ <;> simp [Statement.tokens, braced, hx]

theorem whileDo (h : NamesIn names (Statement.whileDo c body).tokens) :
    NamesIn names (Statement.tokensAll body) := by
  intro x hx
  exact h x (by simp [Statement.tokens, braced, hx])

theorem dotimes (h : NamesIn names (Statement.dotimes b body).tokens) :
    (∀ x, b.val = .var x → x ∈ names) ∧ NamesIn names (Statement.tokensAll body) := by
  refine ⟨fun x hx => h x ?_, fun x hx => h x ?_⟩
  · simp [Statement.tokens, hx, Bound.token]
  · simp [Statement.tokens, braced, hx]

theorem cons (h : NamesIn names (Statement.tokensAll (s :: rest))) :
    NamesIn names s.tokens ∧ NamesIn names (Statement.tokensAll rest) := by
  refine ⟨fun x hx => h x ?_, fun x hx => h x ?_⟩ <;> simp [Statement.tokensAll, hx]

end NamesIn

mutual

theorem Statement.lowers {names : List String} (m : Meaning) (hn : Unclaimed names)
    (s : Statement) (k : Nat) (h : NamesIn names s.tokens) :
    Lowers names (s.Runs m) (C.Statement.RunsAll m names (s.lower k)) := by
  cases s with
  | declare x value =>
    cases value with
    | none => exact .eq
    | some e =>
      rw [Statement.lower, C.Statement.runsAll_single]
      exact .assign m (h x.val (by simp [Statement.tokens])) e
  | assign x e =>
    rw [Statement.lower, C.Statement.runsAll_single]
    exact .assign m (h x.val (by simp [Statement.tokens])) e
  | ifThen c body =>
    have hbody := Statement.lowersAll m hn body k h.ifThen
    rw [Statement.lower, C.Statement.runsAll_single]
    exact .branch (fun _ => rfl) hbody .eq
  | ifElse c body otherwise =>
    have hbody := Statement.lowersAll m hn body k h.ifElse.1
    have hother :=
      Statement.lowersAll m hn otherwise (k + Statement.loopsAll body) h.ifElse.2
    rw [Statement.lower, C.Statement.runsAll_single]
    exact .branch (fun _ => rfl) hbody hother
  | whileDo c body =>
    have hbody := Statement.lowersAll m hn body k h.whileDo
    rw [Statement.lower, C.Statement.runsAll_single]
    exact .whileTrue (fun _ => rfl) hbody
  | dotimes b body =>
    have hbody := Statement.lowersAll m hn body (k + 1) h.dotimes.2
    rw [Statement.lower, C.Statement.runsAll_single]
    exact hbody.dotimes (b.val.loopVariables hn k h.dotimes.1)
  | print first more =>
    rw [Statement.lower, C.Statement.runsAll_single, PrintArg.call]
    rw [List.map_map, List.filterMap_map]
    exact .print m _ _
  | read x =>
    rw [Statement.lower, C.Statement.runsAll_single]
    exact .read m (h x.val (by simp [Statement.tokens]))

/-- The C statements do what the program does, whatever loops come before it. -/
theorem Statement.lowersAll {names : List String} (m : Meaning) (hn : Unclaimed names)
    (ss : List Statement) (k : Nat) (h : NamesIn names (Statement.tokensAll ss)) :
    Lowers names (Statement.RunsAll m ss)
      (C.Statement.RunsAll m names (Statement.lowerAll k ss)) := by
  cases ss with
  | nil => exact .eq
  | cons s rest =>
    have hs := Statement.lowers m hn s k h.cons.1
    have hrest := Statement.lowersAll m hn rest (k + s.loops) h.cons.2
    rw [Statement.lowerAll, C.Statement.runsAll_append]
    exact hs.seq hrest

end

end BareBones
