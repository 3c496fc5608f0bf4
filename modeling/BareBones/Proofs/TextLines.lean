import BareBones.Proofs.Coordinates

/-!
Lines and positions of one text. The positions of characters come from a walk over the
text, its lines from a cut at the newlines. Both describe the same text: what the walk
puts on a line is that line with its ending (`Source.filter_walk_line`), so the lines can
be read off the positions alone (`Source.characters_and_lines`).
-/

namespace BareBones

/-! ## Along the text -/

theorem Position.line_le {p q : Position} (h : p ≤ q) : p.line ≤ q.line := by
  rw [le_iff] at h
  omega

/-- A tab leads to the next tab stop. -/
theorem Position.after_tab (p : Position) (h : 1 ≤ p.column) :
    (p.after '\t').line = p.line ∧ (p.after '\t').column % tabStop = 1 ∧
      p.column + 1 ≤ (p.after '\t').column ∧ (p.after '\t').column ≤ p.column + tabStop := by
  have hcolumn : (p.after '\t').column = p.column + (4 - (p.column - 1) % 4) := rfl
  have hstop : tabStop = 4 := rfl
  rw [hcolumn, hstop]
  exact ⟨rfl, by omega⟩

namespace Source

variable {p : Position} {cs : List Char} {a : Char × Position}

/-- The walk goes on from where it begins and ends behind all characters. -/
theorem between_of_mem_walk (h : a ∈ walk p cs) : p ≤ a.2 ∧ a.2 < p.afterAll cs := by
  induction cs generalizing p with
  | nil => cases h
  | cons c cs ih =>
    rcases List.mem_cons.mp h with rfl | h
    · exact ⟨p.le_refl, Position.lt_of_lt_of_le (p.lt_after c) (Position.le_afterAll _ cs)⟩
    · obtain ⟨hle, hlt⟩ := ih h
      exact ⟨Position.le_trans (Position.le_of_lt (p.lt_after c)) hle, hlt⟩

theorem walk_pairwise (p : Position) (cs : List Char) :
    (walk p cs).Pairwise fun a b => a.2 < b.2 := by
  induction cs generalizing p with
  | nil => exact .nil
  | cons c cs ih =>
    refine .cons ?_ (ih _)
    intro b hb
    exact Position.lt_of_lt_of_le (p.lt_after c) (between_of_mem_walk hb).1

theorem one_le_column_of_mem_walk (hp : 1 ≤ p.column) (h : a ∈ walk p cs) : 1 ≤ a.2.column := by
  induction cs generalizing p with
  | nil => cases h
  | cons c cs ih =>
    rcases List.mem_cons.mp h with rfl | h
    · exact hp
    · exact ih (p.one_le_column_after c hp) h

/-- Behind each character stands the next one, or the end of the text. -/
theorem next_position {s : Source} {i : Nat} {c : Char} {p : Position}
    (h : s.characters[i]? = some (c, p)) :
    (s.characters.map (·.2) ++ [s.ending])[i + 1]? = some (p.after c) := by
  rw [characters_getElem?, Option.map_eq_some_iff] at h
  obtain ⟨d, hd, he⟩ := h
  obtain ⟨rfl, rfl⟩ := Prod.mk.inj he
  obtain ⟨hi, rfl⟩ := List.getElem?_eq_some_iff.mp hd
  have hnext : s.positionAt (i + 1) = (s.positionAt i).after s.text.toList[i] := by
    rw [positionAt, List.take_succ_eq_append_getElem hi, Position.afterAll_append]
    rfl
  have hlength : (s.characters.map (·.2)).length = s.text.toList.length := by
    rw [List.length_map, characters, ← List.length_map (f := Prod.fst), walk_map_fst]
  rw [← hnext]
  rcases Nat.lt_or_ge (i + 1) s.text.toList.length with hlt | hge
  · rw [List.getElem?_append_left (by omega), List.getElem?_map, characters_getElem?,
      List.getElem?_eq_getElem hlt]
    rfl
  · rw [List.getElem?_append_right (by omega), positionAt_of_length_le s _ hge]
    have hzero : i + 1 - (s.characters.map (·.2)).length = 0 := by omega
    rw [hzero]
    rfl

/-! ## Line by line -/

/-- The first line of a text with the newline that ends it. -/
def endedLine (cs : List Char) : List Char :=
  cs.takeWhile (· ≠ '\n') ++ (cs.dropWhile (· ≠ '\n')).take 1

/-- A line without its ending: a newline, and a carriage return directly before it. -/
def withoutEnding (line : List Char) : List Char :=
  if line.getLast? = some '\n' then
    if line.dropLast.getLast? = some '\r' then line.dropLast.dropLast else line.dropLast
  else line

theorem withoutEnding_endedLine (cs : List Char) : withoutEnding (endedLine cs) = firstLine cs := by
  obtain ⟨right, below, rfl, hright, hbelow⟩ := exists_firstLine cs
  have hall : ∀ c ∈ right, decide (c ≠ '\n') = true := by
    intro c hc
    simpa using ne_of_mem_of_not_mem hc hright
  have hhead : ∀ c ∈ below.head?, decide (c ≠ '\n') = false := by simpa using hbelow
  obtain ⟨htake, hdrop⟩ := takeWhile_append_of_head hall hhead
  rw [endedLine, firstLine, htake, hdrop]
  cases below with
  | nil =>
    have hlast : right.getLast? ≠ some '\n' := fun h => hright (List.mem_of_getLast? h)
    simp [withoutEnding, hlast]
  | cons c below =>
    obtain rfl : c = '\n' := hbelow c rfl
    simp [withoutEnding]

/-- The walk puts on the line `n` lines further down what a cut at the newlines leaves there. -/
theorem filter_walk_line (p : Position) (cs : List Char) (n : Nat) :
    ((walk p cs).filter (·.2.line = p.line + n)).map (·.1) = endedLine (dropLines n cs) := by
  induction cs generalizing p n with
  | nil => cases n <;> rfl
  | cons c cs ih =>
    by_cases hc : c = '\n'
    · subst hc
      cases n with
      | zero =>
        -- whatever follows the newline stands further down
        have hrest : (walk (p.after '\n') cs).filter (·.2.line = p.line) = [] := by
          rw [List.filter_eq_nil_iff]
          intro a ha
          have hbelow : p.line + 1 ≤ a.2.line := Position.line_le (between_of_mem_walk ha).1
          simp only [decide_eq_true_eq]
          omega
        simp [walk, hrest, dropLines, endedLine]
      | succ n =>
        have hline : (p.after '\n').line + n = p.line + (n + 1) := by
          show p.line + 1 + n = _
          omega
        rw [walk, List.filter_cons_of_neg (by simp), ← hline, ih, dropLines, if_pos rfl]
    · have hline := (p.after_of_ne_newline hc).1
      have hrest := ih (p.after c) n
      rw [hline] at hrest
      cases n with
      | zero =>
        rw [Nat.add_zero] at hrest ⊢
        rw [walk, List.filter_cons_of_pos (by simp), List.map_cons, hrest]
        simp [dropLines, endedLine, hc]
      | succ n =>
        rw [walk, List.filter_cons_of_neg (by simp), hrest, dropLines, if_neg hc]

/-- The characters on a line, in order and without the line's ending, are that line. -/
theorem line_eq_onLine (s : Source) {n : Nat} (h : 1 ≤ n) : s.line n =
    String.ofList (withoutEnding ((s.characters.filter (·.2.line = n)).map (·.1))) := by
  obtain ⟨m, rfl⟩ := Nat.exists_eq_add_of_le h
  have hwalk : (s.characters.filter (·.2.line = 1 + m)).map (·.1) =
      endedLine (dropLines m s.text.toList) := filter_walk_line .start s.text.toList m
  rw [hwalk, withoutEnding_endedLine, Nat.add_comm]
  rfl

/-- Positions and lines describe the same text. Each character is located once, in order
and before the end, and a tab leads to one of the next four columns, which is a tab stop.
The characters on a line are that line with its ending, and a line without characters is
empty. -/
theorem characters_and_lines (s : Source) :
    s.characters.map (·.1) = s.text.toList ∧
    (s.characters.Pairwise fun a b => a.2 < b.2) ∧
    (∀ a ∈ s.characters, 1 ≤ a.2.line ∧ 1 ≤ a.2.column ∧ a.2 < s.ending) ∧
    (∀ i p, s.characters[i]? = some ('\t', p) →
      ∃ q, (s.characters.map (·.2) ++ [s.ending])[i + 1]? = some q ∧ q.line = p.line ∧
        q.column % 4 = 1 ∧ p.column + 1 ≤ q.column ∧ q.column ≤ p.column + 4) ∧
    (∀ n, 1 ≤ n → s.line n =
      String.ofList (withoutEnding ((s.characters.filter (·.2.line = n)).map (·.1)))) ∧
    ∀ n, (∀ a ∈ s.characters, a.2.line ≠ n) → s.line n = "" := by
  have hcolumn : ∀ a ∈ s.characters, 1 ≤ a.2.column :=
    fun a ha => one_le_column_of_mem_walk (p := .start) (Nat.le_refl 1) ha
  refine ⟨walk_map_fst .start _, walk_pairwise .start _, ?_, ?_, fun n => s.line_eq_onLine, ?_⟩
  · intro a ha
    obtain ⟨hle, hlt⟩ := between_of_mem_walk ha
    exact ⟨Position.line_le hle, hcolumn a ha, hlt⟩
  · intro i p hp
    have hstop := p.after_tab (hcolumn _ (List.mem_of_getElem? hp))
    exact ⟨p.after '\t', next_position hp, hstop⟩
  · intro n hn
    cases n with
    | zero => rfl
    | succ n =>
      have hnone : s.characters.filter (·.2.line = n + 1) = [] := by
        rw [List.filter_eq_nil_iff]
        intro a ha
        simpa using hn a ha
      rw [s.line_eq_onLine (Nat.succ_pos n), hnone]
      rfl

end Source

end BareBones
