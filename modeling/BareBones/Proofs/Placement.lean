import BareBones.Proofs.Segments

/-!
Where tokens stand. The place of a token follows from the characters before it: the
tokens of a text are those of its segments, each put where walking over the earlier
ones leads (`Source.tokens_eq`). So tokens stand in the order of the text, and a text
that begins some lines further down has its tokens moved by as many lines
(`Segment.locateAll_down`).
-/

namespace BareBones

/-! ## Positions in the order of the text -/

namespace Position

/-- Line first, then column. -/
instance : LE Position := ⟨fun p q => p.line < q.line ∨ p.line = q.line ∧ p.column ≤ q.column⟩

instance : LT Position := ⟨fun p q => p.line < q.line ∨ p.line = q.line ∧ p.column < q.column⟩

theorem le_iff (p q : Position) :
    p ≤ q ↔ p.line < q.line ∨ p.line = q.line ∧ p.column ≤ q.column := Iff.rfl

theorem lt_iff (p q : Position) :
    p < q ↔ p.line < q.line ∨ p.line = q.line ∧ p.column < q.column := Iff.rfl

theorem le_refl (p : Position) : p ≤ p := Or.inr ⟨rfl, Nat.le_refl _⟩

theorem le_trans {p q r : Position} (hpq : p ≤ q) (hqr : q ≤ r) : p ≤ r := by
  rw [le_iff] at hpq hqr ⊢
  omega

theorem lt_of_lt_of_le {p q r : Position} (hpq : p < q) (hqr : q ≤ r) : p < r := by
  rw [lt_iff] at hpq ⊢
  rw [le_iff] at hqr
  omega

theorem le_of_lt {p q : Position} (h : p < q) : p ≤ q := by
  rw [lt_iff] at h
  rw [le_iff]
  omega

theorem after_newline (p : Position) : p.after '\n' = ⟨p.line + 1, 1⟩ := rfl

/-- Any other character leads further to the right in its line. -/
theorem after_of_ne_newline (p : Position) {c : Char} (h : c ≠ '\n') :
    (p.after c).line = p.line ∧ p.column < (p.after c).column := by
  unfold after
  rw [if_neg h]
  split
  · have hstop : (p.column - 1) % tabStop < tabStop := Nat.mod_lt _ (by decide)
    constructor
    · rfl
    · show p.column < p.column + (tabStop - (p.column - 1) % tabStop)
      omega
  · exact ⟨rfl, Nat.lt_succ_self _⟩

/-- Whatever follows a character stands behind it. -/
theorem lt_after (p : Position) (c : Char) : p < p.after c := by
  by_cases h : c = '\n'
  · rw [h, after_newline, lt_iff]
    exact Or.inl (Nat.lt_succ_self _)
  · obtain ⟨hline, hcolumn⟩ := p.after_of_ne_newline h
    rw [lt_iff]
    exact Or.inr ⟨hline.symm, hcolumn⟩

theorem le_afterAll (p : Position) (cs : List Char) : p ≤ p.afterAll cs := by
  induction cs generalizing p with
  | nil => exact p.le_refl
  | cons c cs ih => exact le_trans (le_of_lt (p.lt_after c)) (ih (p.after c))

/-- Characters other than newlines stay in their line. -/
theorem line_afterAll (p : Position) {cs : List Char} (h : '\n' ∉ cs) :
    (p.afterAll cs).line = p.line := by
  induction cs generalizing p with
  | nil => rfl
  | cons c cs ih =>
    rw [List.mem_cons, not_or] at h
    rw [afterAll_cons, ih (p.after c) h.2, (p.after_of_ne_newline (Ne.symm h.1)).1]

/-- The position `n` lines further down. -/
def down (n : Nat) (p : Position) : Position := ⟨p.line + n, p.column⟩

theorem after_down (n : Nat) (p : Position) (c : Char) :
    (p.down n).after c = (p.after c).down n := by
  unfold after down
  split
  · simp only [mk.injEq, and_true]
    omega
  · split <;> rfl

theorem afterAll_down (n : Nat) (p : Position) (cs : List Char) :
    (p.down n).afterAll cs = (p.afterAll cs).down n := by
  induction cs generalizing p with
  | nil => rfl
  | cons c cs ih => rw [afterAll_cons, after_down, ih, afterAll_cons]

end Position

def Span.down (n : Nat) (s : Span) : Span := ⟨s.first.down n, s.last.down n⟩

def Located.down {α : Type} (n : Nat) (x : Located α) : Located α := ⟨x.val, x.span.down n⟩

/-! ## Tokens at their places -/

namespace Segment

/-- The token of a segment that begins at `here`. -/
def locate (here : Position) (g : Segment) : Located Token :=
  ⟨g.token, here.afterAll g.gap, (here.afterAll g.gap).afterAll g.token.raw.dropLast⟩

/-- The tokens of segments that follow each other from `here` on. -/
def locateAll (here : Position) : List Segment → List (Located Token)
  | [] => []
  | g :: gs => g.locate here :: locateAll (here.afterAll g.chars) gs

@[simp] theorem locate_val (here : Position) (g : Segment) : (g.locate here).val = g.token := rfl

theorem locateAll_append (here : Position) (hs gs : List Segment) :
    locateAll here (hs ++ gs) = locateAll here hs ++ locateAll (here.afterAll (text hs)) gs := by
  induction hs generalizing here with
  | nil => rfl
  | cons h hs ih =>
    simp only [List.cons_append, locateAll, ih, text, List.flatMap_cons, Position.afterAll_append]

/-- The `k`-th of the tokens is that of the segment which `k` others precede. -/
theorem exists_of_locateAll_getElem? {here : Position} {gs : List Segment} {k : Nat}
    {t : Located Token} (h : (locateAll here gs)[k]? = some t) :
    ∃ hs g gs', gs = hs ++ g :: gs' ∧ hs.length = k ∧ t = g.locate (here.afterAll (text hs)) := by
  induction gs generalizing here k with
  | nil => cases h
  | cons g gs ih =>
    cases k with
    | zero =>
      obtain rfl : g.locate here = t := by simpa [locateAll] using h
      exact ⟨[], g, gs, rfl, rfl, rfl⟩
    | succ k =>
      rw [locateAll, List.getElem?_cons_succ] at h
      obtain ⟨hs, g', gs', rfl, rfl, rfl⟩ := ih h
      exact ⟨g :: hs, g', gs', rfl, rfl, by simp [chars]⟩

/-- Each of the tokens is that of a segment, behind the text of the earlier ones. -/
theorem exists_of_mem_locateAll {here : Position} {gs : List Segment} {t : Located Token}
    (h : t ∈ locateAll here gs) :
    ∃ hs g gs', gs = hs ++ g :: gs' ∧ t = g.locate (here.afterAll (text hs)) := by
  obtain ⟨k, hk⟩ := List.mem_iff_getElem?.mp h
  obtain ⟨hs, g, gs', hsplit, -, ht⟩ := exists_of_locateAll_getElem? hk
  exact ⟨hs, g, gs', hsplit, ht⟩

theorem locateAll_down (n : Nat) (here : Position) (gs : List Segment) :
    locateAll (here.down n) gs = (locateAll here gs).map (·.down n) := by
  induction gs generalizing here with
  | nil => rfl
  | cons g gs ih =>
    have hlocate : g.locate (here.down n) = (g.locate here).down n := by
      simp only [locate, Located.down, Span.down, Position.afterAll_down]
    rw [locateAll, Position.afterAll_down, ih, hlocate, locateAll, List.map_cons]

theorem le_first_of_mem_locateAll {here : Position} {gs : List Segment} {t : Located Token}
    (h : t ∈ locateAll here gs) : here ≤ t.span.first := by
  obtain ⟨hs, g, gs', -, rfl⟩ := exists_of_mem_locateAll h
  rw [locate, ← Position.afterAll_append]
  exact here.le_afterAll _

/-- Later tokens do not begin before earlier ones. -/
theorem locateAll_pairwise (here : Position) (gs : List Segment) :
    (locateAll here gs).Pairwise fun t u => t.span.first ≤ u.span.first := by
  induction gs generalizing here with
  | nil => exact .nil
  | cons g gs ih =>
    refine .cons ?_ (ih _)
    intro u hu
    have hbehind := le_first_of_mem_locateAll hu
    rw [chars, Position.afterAll_append] at hbehind
    exact Position.le_trans (Position.le_afterAll _ _) hbehind

end Segment

/-- The tokens from a place on are those of the segments there. -/
theorem Cursor.tokensFrom_eq_locateAll (k : Cursor) :
    k.tokensFrom [] = Segment.locateAll k.here k.segments := by
  fun_induction Cursor.segments k with
  | case1 k he =>
    obtain ⟨gap, t, rest, -, hs, hnext, -⟩ := k.next_exact
    rw [tokensFrom_nil, if_pos he, hs, hnext]
    rfl
  | case2 k hne ih =>
    obtain ⟨gap, t, rest, -, hs, hnext, hk, -⟩ := k.next_exact
    rw [tokensFrom_nil, if_neg hne, ih, hs, hnext, hk]
    rfl

theorem Source.tokens_eq (s : Source) : s.tokens = Segment.locateAll .start s.segments :=
  s.cursor.tokensFrom_eq_locateAll

end BareBones
