import BareBones.Proofs.Grammar

/-!
The rules on names, followed token by token. `Naming` remembers the declared
names and whether the last token was a `let`; that is all that is needed to
judge the next token, and a list of tokens is well named exactly when no token
of it is refused (`Naming.run_isSome_iff`).
-/

namespace BareBones

structure Naming where
  declared : List String := []
  afterLet : Bool := false

namespace Naming

def step (n : Naming) : Token → Option Naming
  | .id x =>
    if n.afterLet then if x ∈ n.declared then none else some ⟨x :: n.declared, false⟩
    else if x ∈ n.declared then some ⟨n.declared, false⟩ else none
  | t => some ⟨n.declared, t = .keyword .let_⟩

def run (n : Naming) : List Token → Option Naming
  | [] => some n
  | t :: w => (n.step t).bind (·.run w)

theorem run_append (n : Naming) (w v : List Token) :
    n.run (w ++ v) = (n.run w).bind (·.run v) := by
  induction w generalizing n with
  | nil => rfl
  | cons t w ih =>
    simp only [List.cons_append, run]
    cases n.step t with
    | none => rfl
    | some m => exact ih m

end Naming

/-! ## Declarations in a growing list -/

theorem declaresAt_snoc (w : List Token) (t : Token) (i : Nat) (x : String) :
    DeclaresAt (w ++ [t]) i x ↔
      DeclaresAt w i x ∨ i + 1 = w.length ∧ w[i]? = some (.keyword .let_) ∧ t = .id x := by
  unfold DeclaresAt
  rcases Nat.lt_trichotomy (i + 1) w.length with h | h | h
  · have hi : i < w.length := by omega
    simp only [List.getElem?_append_left h, List.getElem?_append_left hi]
    constructor
    · exact Or.inl
    · rintro (h' | ⟨h', _⟩)
      · exact h'
      · omega
  · have hi : i < w.length := by omega
    simp only [List.getElem?_append_left hi, h, List.getElem?_concat_length]
    simp
  · have hl : w[i + 1]? = none := List.getElem?_eq_none (by omega)
    have hr : (w ++ [t])[i + 1]? = none := List.getElem?_eq_none (by simp; omega)
    simp only [hl, hr]
    constructor
    · rintro ⟨_, h'⟩
      cases h'
    · rintro (⟨_, h'⟩ | ⟨h', _⟩)
      · cases h'
      · omega

theorem DeclaresAt.lt_length {w : List Token} {i : Nat} {x : String} (h : DeclaresAt w i x) :
    i + 1 < w.length :=
  (List.getElem?_eq_some_iff.mp h.2).1

theorem DeclaresAt.append {w : List Token} {i : Nat} {x : String} (h : DeclaresAt w i x)
    (v : List Token) : DeclaresAt (w ++ v) i x := by
  have hi := h.lt_length
  refine ⟨?_, ?_⟩
  · rw [List.getElem?_append_left (by omega)]
    exact h.1
  · rw [List.getElem?_append_left hi]
    exact h.2

theorem WellNamed.of_append {w v : List Token} (h : WellNamed (w ++ v)) : WellNamed w where
  once i j x hij hi hj := h.once i j x hij (hi.append v) (hj.append v)
  declared i x hx := by
    have hi := (List.getElem?_eq_some_iff.mp hx).1
    have hx' : (w ++ v)[i]? = some (.id x) := by rwa [List.getElem?_append_left hi]
    rcases h.declared i x hx' with ⟨j, hj, hl⟩ | ⟨j, hj, hd⟩
    · rw [List.getElem?_append_left (by omega)] at hl
      exact Or.inl ⟨j, hj, hl⟩
    · refine Or.inr ⟨j, hj, ?_, ?_⟩
      · rw [← List.getElem?_append_left (by omega : j < w.length)]
        exact hd.1
      · rw [← List.getElem?_append_left (by omega : j + 1 < w.length)]
        exact hd.2

/-- The token before the next one is a `let`. -/
def EndsInLet (w : List Token) : Prop := w.getLast? = some (.keyword .let_)

theorem endsInLet_iff (w : List Token) :
    EndsInLet w ↔ ∃ j, j + 1 = w.length ∧ w[j]? = some (.keyword .let_) := by
  rw [EndsInLet, List.getLast?_eq_getElem?]
  constructor
  · intro h
    have hl := (List.getElem?_eq_some_iff.mp h).1
    exact ⟨w.length - 1, by omega, h⟩
  · rintro ⟨j, hj, h⟩
    rwa [← hj, Nat.add_sub_cancel]

/-- One more token keeps the rules exactly when it is no name, or a new name
behind a `let`, or a declared name anywhere else. -/
theorem wellNamed_snoc_iff (w : List Token) (t : Token) :
    WellNamed (w ++ [t]) ↔ WellNamed w ∧ ∀ x, t = .id x →
      (EndsInLet w → ¬ ∃ i, DeclaresAt w i x) ∧
      (¬ EndsInLet w → ∃ i, DeclaresAt w i x) := by
  constructor
  · intro h
    refine ⟨h.of_append, ?_⟩
    rintro x rfl
    refine ⟨?_, ?_⟩
    · rintro hl ⟨i, hi⟩
      obtain ⟨j, hj, hlet⟩ := (endsInLet_iff w).mp hl
      have hjx : DeclaresAt (w ++ [.id x]) j x :=
        (declaresAt_snoc w _ j x).mpr (Or.inr ⟨hj, hlet, rfl⟩)
      have hij := hi.lt_length
      exact h.once i j x (by omega) (hi.append _) hjx
    · intro hl
      rcases h.declared w.length x (by simp) with ⟨j, hj, hlet⟩ | ⟨j, hj, hd⟩
      · rw [List.getElem?_append_left (by omega)] at hlet
        exact absurd ((endsInLet_iff w).mpr ⟨j, hj, hlet⟩) hl
      · rcases (declaresAt_snoc w _ j x).mp hd with hd | ⟨hd, _⟩
        · exact ⟨j, hd⟩
        · omega
  · rintro ⟨hw, ht⟩
    refine ⟨?_, ?_⟩
    · intro i j x hij hi hj
      rcases (declaresAt_snoc w t i x).mp hi with hi | ⟨hi, _, _⟩
      · rcases (declaresAt_snoc w t j x).mp hj with hj | ⟨hj, hlet, htx⟩
        · exact hw.once i j x hij hi hj
        · exact (ht x htx).1 ((endsInLet_iff w).mpr ⟨j, hj, hlet⟩) ⟨i, hi⟩
      · have hlt := hj.lt_length
        simp only [List.length_append, List.length_singleton] at hlt
        omega
    · intro i x hx
      rcases Nat.lt_trichotomy i w.length with hi | hi | hi
      · rw [List.getElem?_append_left hi] at hx
        rcases hw.declared i x hx with ⟨j, hj, hlet⟩ | ⟨j, hj, hd⟩
        · refine Or.inl ⟨j, hj, ?_⟩
          rwa [List.getElem?_append_left (by omega)]
        · exact Or.inr ⟨j, hj, hd.append _⟩
      · subst hi
        simp only [List.getElem?_concat_length, Option.some.injEq] at hx
        by_cases hl : EndsInLet w
        · obtain ⟨j, hj, hlet⟩ := (endsInLet_iff w).mp hl
          refine Or.inl ⟨j, hj, ?_⟩
          rwa [List.getElem?_append_left (by omega)]
        · obtain ⟨j, hd⟩ := (ht x hx).2 hl
          exact Or.inr ⟨j, hd.lt_length, hd.append _⟩
      · rw [List.getElem?_eq_none (by simp; omega)] at hx
        cases hx

/-! ## The rules as a run -/

namespace Naming

/-- `n` is what there is to remember after `w`. -/
structure Tracks (n : Naming) (w : List Token) : Prop where
  declared : ∀ x, x ∈ n.declared ↔ ∃ i, DeclaresAt w i x
  afterLet : n.afterLet = true ↔ EndsInLet w

theorem tracks_start : Tracks {} [] where
  declared x := by simp [DeclaresAt]
  afterLet := by simp [EndsInLet]

theorem endsInLet_snoc (w : List Token) (t : Token) :
    EndsInLet (w ++ [t]) ↔ t = .keyword .let_ := by
  simp [EndsInLet]

/-- A token that is no name changes at most whether a `let` stands last. -/
theorem Tracks.other {n : Naming} {w : List Token} (h : Tracks n w) (t : Token)
    (ht : ∀ x, t ≠ .id x) : Tracks ⟨n.declared, t = .keyword .let_⟩ (w ++ [t]) where
  declared x := by
    rw [h.declared x]
    simp only [declaresAt_snoc, ht x, and_false, or_false]
  afterLet := by simp [endsInLet_snoc]

theorem Tracks.use {n : Naming} {w : List Token} (h : Tracks n w) (x : String)
    (hl : n.afterLet = false) : Tracks ⟨n.declared, false⟩ (w ++ [.id x]) where
  declared y := by
    have hn : ¬ EndsInLet w := by
      rw [← h.afterLet, hl]
      simp
    rw [h.declared y]
    simp only [declaresAt_snoc]
    refine ⟨fun ⟨i, hi⟩ => ⟨i, Or.inl hi⟩, ?_⟩
    rintro ⟨i, hi | ⟨hi, hlet, _⟩⟩
    · exact ⟨i, hi⟩
    · exact absurd ((endsInLet_iff w).mpr ⟨i, hi, hlet⟩) hn
  afterLet := by simp [endsInLet_snoc]

theorem Tracks.declare {n : Naming} {w : List Token} (h : Tracks n w) (x : String)
    (hl : n.afterLet = true) : Tracks ⟨x :: n.declared, false⟩ (w ++ [.id x]) where
  declared y := by
    obtain ⟨j, hj, hlet⟩ := (endsInLet_iff w).mp (h.afterLet.mp hl)
    simp only [declaresAt_snoc, List.mem_cons, h.declared y]
    constructor
    · rintro (rfl | ⟨i, hi⟩)
      · exact ⟨j, Or.inr ⟨hj, hlet, rfl⟩⟩
      · exact ⟨i, Or.inl hi⟩
    · rintro ⟨i, hi | ⟨_, _, hx⟩⟩
      · exact Or.inr ⟨i, hi⟩
      · exact Or.inl (by cases hx; rfl)
  afterLet := by simp [endsInLet_snoc]

theorem Tracks.step {n m : Naming} {w : List Token} {t : Token} (h : Tracks n w)
    (hs : n.step t = some m) : Tracks m (w ++ [t]) := by
  unfold Naming.step at hs
  split at hs
  · rename_i x
    split at hs
    · rename_i hl
      split at hs
      · cases hs
      · cases hs
        exact h.declare x hl
    · rename_i hl
      split at hs
      · cases hs
        exact h.use x (by simpa using hl)
      · cases hs
  · rename_i ht
    cases hs
    exact h.other t ht

/-- A token is refused exactly when it breaks the rules. -/
theorem Tracks.step_isSome_iff {n : Naming} {w : List Token} (h : Tracks n w)
    (hw : WellNamed w) (t : Token) : (n.step t).isSome ↔ WellNamed (w ++ [t]) := by
  rw [wellNamed_snoc_iff]
  cases t with
  | id x =>
    have hd := h.declared x
    have hl := h.afterLet
    simp only [Naming.step, Token.id.injEq, forall_eq', ← hd, ← hl, hw, true_and]
    cases n.afterLet <;> by_cases hx : x ∈ n.declared <;> simp [hx]
  | _ => simp [Naming.step, hw]

theorem Tracks.run {n m : Naming} {w v : List Token} (h : Tracks n w) (hr : n.run v = some m) :
    Tracks m (w ++ v) := by
  induction v generalizing n w with
  | nil =>
    cases hr
    simpa using h
  | cons t v ih =>
    rw [Naming.run] at hr
    obtain ⟨k, hk, hv⟩ := Option.bind_eq_some_iff.mp hr
    rw [List.append_cons]
    exact ih (h.step hk) hv

/-- A list of tokens is well named exactly when none of them is refused. -/
theorem Tracks.run_isSome_iff {n : Naming} {w : List Token} (h : Tracks n w)
    (hw : WellNamed w) (v : List Token) : (n.run v).isSome ↔ WellNamed (w ++ v) := by
  induction v generalizing n w with
  | nil => simp [Naming.run, hw]
  | cons t v ih =>
    have hs := h.step_isSome_iff hw t
    rw [List.append_cons, Naming.run]
    cases hm : n.step t with
    | none =>
      have ht : ¬ WellNamed (w ++ [t]) := by simpa [hm] using hs
      simp only [Option.bind_none, Option.isSome_none, Bool.false_eq_true, false_iff]
      exact fun hv => ht hv.of_append
    | some m =>
      have ht : WellNamed (w ++ [t]) := by simpa [hm] using hs
      exact ih (h.step hm) ht

theorem run_isSome_iff (w : List Token) : (Naming.run {} w).isSome ↔ WellNamed w := by
  have hw : WellNamed [] := ⟨by simp [DeclaresAt], by simp⟩
  simpa using tracks_start.run_isSome_iff hw w

end Naming

end BareBones
