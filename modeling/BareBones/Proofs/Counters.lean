import BareBones.Proofs.Acceptance
import BareBones.Proofs.Arithmetic
import BareBones.Proofs.Lowering

/-!
Counted loops of accepted programs. The C statements of an accepted program end
exactly as the program does, and no counter gets past the value that the bound of its
loop had on entry. A literal is never above the largest `int`. A variable may be, as
integers have no largest one here, and a counter follows it there.
-/

namespace BareBones

/-! ## What a run keeps -/

/-- What holds before a run holds behind it. -/
def Keeps (I : State → Prop) (R : State → State → Prop) : Prop := ∀ s t, R s t → I s → I t

namespace Keeps

variable {I : State → Prop} {test : State → Option Bool} {S S' : State → State → Prop}

theorem eq : Keeps I Eq := by
  rintro s t rfl hs
  exact hs

theorem seq (h : Keeps I S) (h' : Keeps I S') : Keeps I (Seq S S') := by
  rintro s t ⟨u, hsu, hut⟩ hs
  exact h' u t hut (h s u hsu hs)

theorem branch (h : Keeps I S) (h' : Keeps I S') : Keeps I (Branch test S S') := by
  rintro s t (⟨-, hst⟩ | ⟨-, hst⟩) hs
  · exact h s t hst hs
  · exact h' s t hst hs

theorem rounds (h : Keeps I S) : Keeps I (Relation.ReflTransGen (Round test S)) := by
  intro s t hst hs
  induction hst with
  | refl => exact hs
  | tail _ hut ih => exact h _ _ hut.2 ih

theorem times (h : Keeps I S) (n : Nat) : Keeps I (Times S n) := by
  induction n with
  | zero => exact eq
  | succ n ih => exact h.seq ih

end Keeps

/-- `I` outlasts everything that is not flow of control. -/
structure Meaning.Keeps (m : Meaning) (I : State → Prop) : Prop where
  assign : ∀ x e, BareBones.Keeps I fun s t => m.Assigns x e s s t
  print : ∀ format args, BareBones.Keeps I fun s t => m.Prints format args s s t
  read : ∀ x, BareBones.Keeps I fun s t => m.Reads x s s t

mutual

theorem Statement.keeps {m : Meaning} {I : State → Prop} (hI : m.Keeps I) (s : Statement) :
    Keeps I (s.Runs m) := by
  cases s with
  | declare x value =>
    cases value with
    | none => exact .eq
    | some e => exact hI.assign x.val e
  | assign x e => exact hI.assign x.val e
  | ifThen c body => exact (Statement.keepsAll hI body).branch .eq
  | ifElse c body otherwise =>
    exact (Statement.keepsAll hI body).branch (Statement.keepsAll hI otherwise)
  | whileDo c body =>
    intro s t hst
    exact (Statement.keepsAll hI body).rounds s t hst.1
  | dotimes b body =>
    intro s t hst
    exact (Statement.keepsAll hI body).times _ s t hst
  | print first more => exact hI.print _ _
  | read x => exact hI.read x.val

theorem Statement.keepsAll {m : Meaning} {I : State → Prop} (hI : m.Keeps I)
    (ss : List Statement) : Keeps I (Statement.RunsAll m ss) := by
  cases ss with
  | nil => exact .eq
  | cons s rest => exact (Statement.keeps hI s).seq (Statement.keepsAll hI rest)

end

/-! ## Counters -/

/-- Between two rounds a counter is at most the limit, which is still the value that
the bound had on entry. -/
theorem LoopVariables.between_rounds {names : List String} {counter : String} {b : Bound}
    {limit : C.Limit} {S T : State → State → Prop} {I : State → Prop}
    (hv : LoopVariables names counter b limit) (h : Lowers names S T) (hS : Keeps I S)
    {s t : State}
    (hst : Relation.ReflTransGen (Round (limit.test counter) (Seq T (C.Increments counter)))
      (limit.enter counter s) t) (hs : I (s.user names)) :
    I (t.user names) ∧ limit.value t.store = b.value (s.user names).store ∧
      0 ≤ t.store counter ∧ t.store counter ≤ max 0 (b.value (s.user names).store) := by
  induction hst with
  | refl =>
    rw [hv.enter_user, hv.enter_value, hv.enter_counter]
    exact ⟨hs, rfl, by omega, by omega⟩
  | @tail u t _ hround ih =>
    obtain ⟨htest, w, huw, rfl⟩ := hround
    obtain ⟨hI, hlimit, hlow, hhigh⟩ := ih
    obtain ⟨hw, hoverlay⟩ := h.of_user huw
    have hbelow : u.store counter < limit.value u.store := by
      simpa [C.Limit.test] using htest
    have hcounter : w.store counter = u.store counter := by
      rw [hoverlay, State.overlay_store_of_not_mem hv.counter_notin]
    have hvalue : limit.value (w.set counter (w.store counter + 1)).store =
        limit.value u.store := by
      rw [hoverlay]
      exact hv.value_stable u (w.user names) _
    rw [State.user_set_of_not_mem hv.counter_notin, hvalue, State.set_store_self]
    exact ⟨hS _ _ hw hI, hlimit, by omega, by omega⟩

/-- Nothing, any number of times. -/
theorem Times.refl (n : Nat) (s : State) : Times Eq n s s := by
  induction n with
  | zero => rfl
  | succ n ih => exact ⟨s, rfl, ih⟩

/-- When the rounds of a loop end, its counter has come to the value of the bound. -/
theorem LoopVariables.counts_up_to_bound {names : List String} {counter : String} {b : Bound}
    {limit : C.Limit} {S T : State → State → Prop} (hv : LoopVariables names counter b limit)
    (h : Lowers names S T) {s a : State}
    (ha : Times S (b.value (s.user names).store).toNat (s.user names) a) :
    ∃ t, Relation.ReflTransGen (Round (limit.test counter) (Seq T (C.Increments counter)))
      (limit.enter counter s) t ∧
        t.store counter = max 0 (b.value (s.user names).store) := by
  obtain ⟨hrounds, -⟩ := (h.countUp hv.counter_notin hv.value_stable (hv.rounds_on_entry s)).mpr
    ⟨a, hv.enter_user s ▸ ha, rfl⟩
  refine ⟨_, hrounds, ?_⟩
  rw [State.set_store_self, hv.enter_counter]
  omega

namespace C

variable {m : Meaning} {names : List String} {v n : Int} {limit : Limit} {s : State}

theorem Statement.countsAll_single {c : Statement} :
    Statement.CountsAll m names v limit n [c] s ↔ c.Counts m names v limit n s := by
  simp [Statement.CountsAll]

theorem Statement.countsAll_append (cs rest : List Statement)
    (h : Statement.CountsAll m names v limit n (cs ++ rest) s) :
    Statement.CountsAll m names v limit n cs s ∨
      ∃ t, Statement.RunsAll m names cs s t ∧ Statement.CountsAll m names v limit n rest t := by
  induction cs generalizing s with
  | nil => exact Or.inr ⟨s, by simp [Statement.RunsAll], h⟩
  | cons c cs ih =>
    rw [List.cons_append, Statement.CountsAll] at h
    rcases h with h | ⟨u, hu, h⟩
    · exact Or.inl (by rw [Statement.CountsAll]; exact Or.inl h)
    · rcases ih h with h | ⟨t, ht, h⟩
      · exact Or.inl (by rw [Statement.CountsAll]; exact Or.inr ⟨u, hu, h⟩)
      · exact Or.inr ⟨t, by rw [Statement.RunsAll]; exact ⟨u, hu, ht⟩, h⟩

end C

/-- `v` is between zero and `n`, the value of the bound behind `limit` in a state where
`I` holds. -/
def CountWithin (I : State → Prop) (v : Int) (limit : C.Limit) (n : Int) : Prop :=
  ∃ (u : State) (b : Bound) (k : Nat),
    I u ∧ limit = b.limit k ∧ n = b.value u.store ∧ 0 ≤ v ∧ v ≤ max 0 n

theorem CountWithin.le_of_literal {I : State → Prop} {v n : Int} {i : Literal}
    (h : CountWithin I v (.literal i) n) : v ≤ 2147483647 := by
  obtain ⟨u, b, k, -, hlimit, rfl, -, hv⟩ := h
  cases b with
  | number j =>
    have hj : j.value ≤ 2147483647 := j.le_max
    simp only [Bound.value] at hv
    omega
  | var x => cases hlimit

mutual

theorem Statement.counts {names : List String} {m : Meaning} {I : State → Prop}
    (hn : Unclaimed names) (hI : m.Keeps I) (s : Statement) (k : Nat)
    (h : NamesIn names s.tokens) {v n : Int} {limit : C.Limit} {a : State}
    (hc : C.Statement.CountsAll m names v limit n (s.lower k) a) (ha : I (a.user names)) :
    CountWithin I v limit n := by
  cases s with
  | declare x value => cases value <;> simp [Statement.lower, C.Statement.CountsAll,
      C.Statement.Counts] at hc
  | assign x e => simp [Statement.lower, C.Statement.CountsAll, C.Statement.Counts] at hc
  | print first more =>
    simp [Statement.lower, PrintArg.call, C.Statement.CountsAll, C.Statement.Counts] at hc
  | read x => simp [Statement.lower, C.Statement.CountsAll, C.Statement.Counts] at hc
  | ifThen c body =>
    rw [Statement.lower, C.Statement.countsAll_single, C.Statement.Counts] at hc
    exact Statement.countsAll hn hI body k h.ifThen hc.2 ha
  | ifElse c body otherwise =>
    rw [Statement.lower, C.Statement.countsAll_single, C.Statement.Counts] at hc
    rcases hc with ⟨-, hc⟩ | ⟨-, hc⟩
    · exact Statement.countsAll hn hI body k h.ifElse.1 hc ha
    · exact Statement.countsAll hn hI otherwise (k + Statement.loopsAll body) h.ifElse.2 hc ha
  | whileDo c body =>
    rw [Statement.lower, C.Statement.countsAll_single, C.Statement.Counts] at hc
    obtain ⟨u, hau, -, hc⟩ := hc
    have hlowers := (Statement.lowersAll m hn body k h.whileDo).round
      (p := fun s => m.condition c s.store) fun _ => rfl
    have hu := (Statement.keepsAll hI body).rounds _ _ (hlowers.rounds.of_user hau).1 ha
    exact Statement.countsAll hn hI body k h.whileDo hc hu
  | dotimes b body =>
    have hv := b.val.loopVariables hn k h.dotimes.1
    rw [Statement.lower, C.Statement.countsAll_single, C.Statement.Counts] at hc
    obtain ⟨u, hau, hc⟩ := hc
    obtain ⟨hu, -, hlow, hhigh⟩ := hv.between_rounds
      (Statement.lowersAll m hn body (k + 1) h.dotimes.2) (Statement.keepsAll hI body) hau ha
    rcases hc with ⟨rfl, rfl, rfl⟩ | ⟨-, hc⟩
    · rw [hv.enter_value]
      exact ⟨a.user names, b.val, k, ha, rfl, rfl, hlow, hhigh⟩
    · exact Statement.countsAll hn hI body (k + 1) h.dotimes.2 hc hu

/-- Whatever a counter holds while the C statements run is within the bound of its
loop. -/
theorem Statement.countsAll {names : List String} {m : Meaning} {I : State → Prop}
    (hn : Unclaimed names) (hI : m.Keeps I) (ss : List Statement) (k : Nat)
    (h : NamesIn names (Statement.tokensAll ss)) {v n : Int} {limit : C.Limit} {a : State}
    (hc : C.Statement.CountsAll m names v limit n (Statement.lowerAll k ss) a)
    (ha : I (a.user names)) : CountWithin I v limit n := by
  cases ss with
  | nil => simp [Statement.lowerAll, C.Statement.CountsAll] at hc
  | cons s rest =>
    rw [Statement.lowerAll] at hc
    rcases C.Statement.countsAll_append _ _ hc with hc | ⟨u, hau, hc⟩
    · exact Statement.counts hn hI s k h.cons.1 hc ha
    · have hu := Statement.keeps hI s _ _ ((Statement.lowers m hn s k h.cons.1).of_user hau).1 ha
      exact Statement.countsAll hn hI rest (k + s.loops) h.cons.2 hc hu

end

/-! ## Accepted programs -/

/-- No declared variable can be mistaken for a variable of a loop. -/
theorem Source.unclaimed {s : Source} {p : Program} (h : s.parse = .ok p) :
    Unclaimed p.declarations := by
  have hunderscore : ∀ x, x.toList.head? = some '_' → x ∉ p.declarations := by
    intro x hx hmem
    obtain ⟨c, cs, hc, halpha, -⟩ := Source.isName_of_mem_declarations h hmem
    rw [hc, List.head?_cons, Option.some.injEq] at hx
    subst hx
    revert halpha
    decide
  intro k
  exact ⟨hunderscore _ (by simp [counterName]), hunderscore _ (by simp [limitName, counterName])⟩

/-- Values are at most the largest `int`. -/
structure Meaning.IntValued (m : Meaning) : Prop where
  expr : ∀ {e store v}, m.expr e store = some v → v ≤ 2147483647
  read : ∀ {x store input v rest}, m.read x store input = some (v, rest) → v ≤ 2147483647

def State.IntValued (s : State) : Prop := ∀ x, s.store x ≤ 2147483647

theorem State.IntValued.set {s : State} (h : s.IntValued) (x : String) {v : Int}
    (hv : v ≤ 2147483647) : (s.set x v).IntValued := by
  intro y
  by_cases hy : y = x
  · subst hy
    rwa [State.set_store_self]
  · rw [State.set_store_of_ne hy]
    exact h y

theorem Meaning.IntValued.keeps {m : Meaning} (hm : m.IntValued) : m.Keeps State.IntValued where
  assign x e := by
    rintro s t ⟨v, hv, rfl⟩ hs
    exact hs.set x (hm.expr hv)
  print format args := by
    rintro s t rfl hs
    exact hs
  read x := by
    rintro s t ⟨v, rest, hv, rfl⟩ hs
    exact hs.set x (hm.read hv)

theorem Bound.value_le (b : Bound) {s : State} (hs : s.IntValued) :
    b.value s.store ≤ 2147483647 := by
  cases b with
  | number n =>
    have hn : n.value ≤ 2147483647 := n.le_max
    simp only [Bound.value]
    omega
  | var x => exact hs x

/-- An accepted program ends in a state of its variables, input and output exactly
when its C statements do, from whatever values all names start with. On the way, a
counter is never above the value that the bound of its loop had on entry. It stays
within `int` in a loop up to a literal, in a loop up to a variable that did so on
entry, and in all loops if the variables of the program never leave `int`. -/
theorem Source.runs_iff_lowered_runs {s : Source} {p : Program} (h : s.parse = .ok p)
    (m : Meaning) (c : State) :
    (∀ a, Statement.RunsAll m p.statements (c.user p.declarations) a ↔
      ∃ d, C.Statement.RunsAll m p.declarations (Statement.lowerAll 0 p.statements) c d ∧
        d.user p.declarations = a) ∧
    ∀ v limit n,
      C.Statement.CountsAll m p.declarations v limit n (Statement.lowerAll 0 p.statements) c →
        0 ≤ v ∧ v ≤ max 0 n ∧
          ((∃ i, limit = .literal i) ∨ n ≤ 2147483647 → v ≤ 2147483647) ∧
          (m.IntValued → (∀ x ∈ p.declarations, c.store x ≤ 2147483647) → v ≤ 2147483647) := by
  have hn := Source.unclaimed h
  have hnames : NamesIn p.declarations (Statement.tokensAll p.statements) := fun x hx =>
    Source.mem_declarations_of_mem_tokens h hx
  have hlowers := Statement.lowersAll m hn p.statements 0 hnames
  refine ⟨fun a => ⟨fun ha => ?_, ?_⟩, fun v limit n hc => ?_⟩
  · have hd : C.Statement.RunsAll m p.declarations (Statement.lowerAll 0 p.statements) c
        (c.overlay p.declarations a) := hlowers.iff.mpr ⟨a, ha, rfl⟩
    exact ⟨_, hd, State.user_overlay (hlowers.keeps State.user_userOnly ha)⟩
  · rintro ⟨d, hd, rfl⟩
    exact (hlowers.of_user hd).1
  · have htrue : m.Keeps fun _ => True := ⟨by simp [Keeps], by simp [Keeps], by simp [Keeps]⟩
    have hwithin := Statement.countsAll hn htrue p.statements 0 hnames hc trivial
    have hbound : 0 ≤ v ∧ v ≤ max 0 n := by
      obtain ⟨-, -, -, -, -, -, hv⟩ := hwithin
      exact hv
    refine ⟨hbound.1, hbound.2, ?_, fun hm hc' => ?_⟩
    · rintro (⟨i, rfl⟩ | hn)
      · exact hwithin.le_of_literal
      · omega
    · have huser : (c.user p.declarations).IntValued := by
        intro x
        by_cases hx : x ∈ p.declarations
        · simpa [State.user, hx] using hc' x hx
        · simp [State.user, hx]
      obtain ⟨u, b, -, hu, -, rfl, -, hv⟩ :=
        Statement.countsAll hn hm.keeps p.statements 0 hnames hc huser
      have hb := b.value_le hu
      omega

/-- Values from left to right. `print` lists its values, `read` takes the next integer,
and no condition has a result. -/
def Meaning.exact : Meaning where
  expr e store := e.value store
  condition _ _ := none
  print _ args store := String.join (args.map fun x => toString (store x))
  read _ _ input := input.head?.map fun v => (v, input.tail)

/-- A variable bounds a loop with the first value that is no `int`. -/
def Source.wideBound : Source where
  name := "wide"
  text := "let x = 2147483647 + 1; dotimes (x) \x7b \x7d"

/-- Whether a program adds 1 to the largest literal and bounds an empty loop by the sum. -/
def Reading.isWideBound : Reading Program → Bool
  | .ok ⟨[d], [.declare ⟨x, _⟩ (some (.binary (.factor (.number ⟨i, _⟩ _)) .add
      (.number ⟨j, _⟩ _))), .dotimes ⟨.var b, _⟩ []]⟩ =>
    [d, x, b] == ["x", "x", "x"] && [i, j] == [2147483647, 1]
  | _ => false

theorem Source.wideBound_counts : ∃ p, wideBound.parse = .ok p ∧
    ¬ ∀ v limit n, C.Statement.CountsAll .exact p.declarations v limit n
      (Statement.lowerAll 0 p.statements) ⟨fun _ => 0, [], []⟩ → v ≤ 2147483647 := by
  have hparse : Reading.isWideBound wideBound.parse = true := by decide +kernel
  unfold Reading.isWideBound at hparse
  split at hparse
  next d x _ i _ _ j _ _ b _ hp =>
    obtain ⟨⟨rfl, rfl, rfl⟩, rfl, rfl⟩ :
      (d = "x" ∧ x = "x" ∧ b = "x") ∧ i = 2147483647 ∧ j = 1 := by
      simpa using hparse
    refine ⟨_, hp, fun hcounts => ?_⟩
    have hv := (Bound.var "x").loopVariables (Source.unclaimed hp) 0 (by simp)
    -- where the loop begins, behind the sum
    let start : State := State.set ⟨fun _ => 0, [], []⟩ "x" 2147483648
    have hx : (Bound.var "x").value (start.user ["x"]).store = 2147483648 := by
      simp [start, Bound.value, State.user]
    obtain ⟨t, hrounds, ht⟩ := hv.counts_up_to_bound .eq (Times.refl _ (start.user ["x"]))
    have hle : t.store (counterName 0) ≤ 2147483647 :=
      hcounts _ _ _ (.inr ⟨start, ⟨2147483648, rfl, rfl⟩, .inl ⟨t, hrounds, .inl ⟨rfl, rfl, rfl⟩⟩⟩)
    rw [ht, hx] at hle
    omega
  next => cases hparse

/-- Exact values, as long as no result is above the largest `int`. -/
def Meaning.checked : Meaning where
  expr e store := (e.value store).filter (· ≤ 2147483647)
  condition _ _ := none
  print _ args store := String.join (args.map fun x => toString (store x))
  read _ _ input := input.head?.bind fun v =>
    if v ≤ 2147483647 then some (v, input.tail) else none

theorem Meaning.checked_intValued : checked.IntValued where
  expr h := by simpa using (Option.filter_eq_some_iff.mp h).2
  read h := by
    obtain ⟨v, -, hv⟩ := Option.bind_eq_some_iff.mp h
    split at hv
    · cases hv
      assumption
    · cases hv

/-- The body of the inner loop changes its bound. -/
def Source.movingBound : Source where
  name := "moving"
  text := "let n = 1; dotimes(2) \x7b dotimes(n) \x7b n = n + 1; \x7d \x7d"

/-- Whether a program counts `n` up from 1, in a loop up to `n` inside a loop up to 2. -/
def Reading.isMovingBound : Reading Program → Bool
  | .ok ⟨[d], [.declare ⟨x, _⟩ (some (.factor (.number ⟨i, _⟩ _))),
      .dotimes ⟨.number ⟨j, _⟩, _⟩ [.dotimes ⟨.var b, _⟩ [.assign ⟨y, _⟩
        (.binary (.factor (.var z _)) .add (.number ⟨k, _⟩ _))]]]⟩ =>
    [d, x, b, y, z] == ["n", "n", "n", "n", "n"] && [i, j, k] == [1, 2, 1]
  | _ => false

theorem Source.movingBound_runs : ∃ p, movingBound.parse = .ok p ∧
    (∃ d, C.Statement.RunsAll .checked p.declarations (Statement.lowerAll 0 p.statements)
      ⟨fun _ => 7, [], []⟩ d ∧ d.store "n" = 4) ∧
    (∃ v i n, C.Statement.CountsAll .checked p.declarations v (.literal i) n
      (Statement.lowerAll 0 p.statements) ⟨fun _ => 7, [], []⟩ ∧ v ≤ 2147483647) ∧
    ∀ v limit n, C.Statement.CountsAll .checked p.declarations v limit n
      (Statement.lowerAll 0 p.statements) ⟨fun _ => 7, [], []⟩ → v ≤ 2147483647 := by
  have hparse : Reading.isMovingBound movingBound.parse = true := by decide +kernel
  unfold Reading.isMovingBound at hparse
  split at hparse
  next d x _ i _ _ j _ _ b _ y _ z _ k _ _ hp =>
    obtain ⟨⟨rfl, rfl, rfl, rfl, rfl⟩, rfl, rfl, rfl⟩ :
      (d = "n" ∧ x = "n" ∧ b = "n" ∧ y = "n" ∧ z = "n") ∧ i = 1 ∧ j = 2 ∧ k = 1 := by
      simpa using hparse
    obtain ⟨hruns, hcounts⟩ := Source.runs_iff_lowered_runs hp .checked ⟨fun _ => 7, [], []⟩
    -- the inner body runs once, and then twice
    obtain ⟨d, hd, huser⟩ := (hruns _).mp
      ⟨_, ⟨1, rfl, rfl⟩, _, ⟨_, ⟨_, ⟨_, ⟨_, ⟨2, rfl, rfl⟩, rfl⟩, rfl⟩, rfl⟩,
        _, ⟨_, ⟨_, ⟨_, ⟨3, rfl, rfl⟩, rfl⟩, _, ⟨_, ⟨4, rfl, rfl⟩, rfl⟩, rfl⟩, rfl⟩, rfl⟩, rfl⟩
    refine ⟨_, hp, ⟨d, hd, ?_⟩, ?_, fun v limit n hc => ?_⟩
    · exact congrFun (congrArg State.store huser) "n"
    · -- the outer counter on entry
      refine ⟨0, ⟨2, by decide⟩, 2, ?entry, (hcounts _ _ _ ?entry).2.2.1 (.inl ⟨_, rfl⟩)⟩
      exact .inr ⟨_, ⟨1, rfl, rfl⟩, .inl ⟨_, .refl, .inl ⟨State.set_store_self.symm, rfl, rfl⟩⟩⟩
    · have hseven : (7 : Int) ≤ 2147483647 := by decide
      exact (hcounts v limit n hc).2.2.2 Meaning.checked_intValued fun _ _ => hseven
  next => cases hparse

end BareBones
