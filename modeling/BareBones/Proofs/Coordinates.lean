import BareBones.Proofs.Underlining

/-!
The coordinates of tokens. A character is located by a walk over the ones before it
(`Source.characters_getElem?`), and a token by the first and the last of its own
characters (`Source.MadeOf`). Walking over a character always leads further, so the
stretches that the tokens of a text are located at follow each other and have nothing
in common (`Source.tokens_located`).
-/

namespace BareBones

/-! ## Characters at their places -/

theorem Source.walk_getElem? (p : Position) (cs : List Char) (i : Nat) :
    (walk p cs)[i]? = cs[i]?.map fun c => (c, p.afterAll (cs.take i)) := by
  induction cs generalizing p i with
  | nil => rfl
  | cons c cs ih =>
    cases i with
    | zero => rfl
    | succ i => simp [walk, ih]

theorem Source.characters_getElem? (s : Source) (i : Nat) :
    s.characters[i]? = s.text.toList[i]?.map fun c => (c, s.positionAt i) :=
  walk_getElem? .start s.text.toList i

/-- The character with the text `before` it. -/
theorem Source.characters_of_split {s : Source} {before behind : List Char} {c : Char}
    (h : s.text.toList = before ++ c :: behind) :
    s.characters[before.length]? = some (c, Position.start.afterAll before) := by
  rw [characters_getElem?, positionAt_length h, h]
  simp

/-! ## Tokens at their places -/

/-- A token that takes characters, with the last of them set apart. -/
theorem Token.Whole.exists_raw_concat {t : Token} (h : t.Whole) (hne : t ≠ .eof) :
    ∃ inner c, t.raw = inner ++ [c] := by
  obtain ⟨c, cs, hraw, -⟩ := h.raw_eq_cons hne
  have hnonempty : t.raw ≠ [] := by simp [hraw]
  exact ⟨t.raw.dropLast, t.raw.getLast hnonempty, (List.dropLast_concat_getLast hnonempty).symm⟩

namespace Segment

/-- A token lies on one line, a newline on the line that it ends. -/
theorem line_locate {g : Segment} (hg : g.token.Whole) (here : Position) :
    (g.locate here).span.last.line = (g.locate here).span.first.line := by
  have hbreak : '\n' ∉ g.token.raw.dropLast := by
    by_cases hnewline : g.token = .newline
    · simp [hnewline, Token.raw]
    · intro hmem
      exact hg.newline_notMem_raw hnewline (List.dropLast_subset _ hmem)
  exact Position.line_afterAll _ hbreak

theorem first_le_last_locate (g : Segment) (here : Position) :
    (g.locate here).span.first ≤ (g.locate here).span.last :=
  Position.le_afterAll _ _

/-- Whatever comes behind a token stands further in the text than its last character. -/
theorem last_locate_lt {g : Segment} (hg : g.token.Whole) (hne : g.token ≠ .eof)
    (here : Position) : (g.locate here).span.last < here.afterAll g.chars := by
  obtain ⟨inner, c, hraw⟩ := hg.exists_raw_concat hne
  have hlast : (g.locate here).span.last = (here.afterAll g.gap).afterAll inner := by
    simp [locate, hraw]
  have hbehind : here.afterAll g.chars = ((here.afterAll g.gap).afterAll inner).after c := by
    simp [chars, hraw]
  rw [hlast, hbehind]
  exact Position.lt_after _ c

/-- Each token ends before the next one begins. -/
theorem locateAll_disjoint {gs : List Segment} (h : Cut gs) (here : Position) :
    (locateAll here gs).Pairwise fun t u => t.span.last < u.span.first := by
  induction h generalizing here with
  | last => simp [locateAll]
  | cons hne _ hwhole _ _ ih =>
    refine .cons ?_ (ih _)
    intro u hu
    exact Position.lt_of_lt_of_le (last_locate_lt hwhole hne here) (le_first_of_mem_locateAll hu)

end Segment

namespace Source

/-- Nothing but the end of the text is left behind the last token. -/
theorem tokens_getLast? (s : Source) : s.tokens.getLast? = some ⟨.eof, .point s.ending⟩ := by
  have hpos : 0 < s.tokens.length := s.cursor.length_tokensFrom_pos
  have hindex : s.tokens.length - 1 < s.tokens.length := by omega
  have hbehind : s.tokens.length ≤ s.tokens.length - 1 + 1 := by omega
  rw [List.getLast?_eq_getElem?]
  exact (s.cursor.getElem?_tokensFrom _ hindex).trans
    (congrArg some (s.cursor.after_next_of_length_le _ hbehind))

/-- The token consists of the characters of the text from the `i`-th on, and it is
located from the first to the last of them. -/
structure MadeOf (s : Source) (t : Located Token) (i : Nat) : Prop where
  raw : (s.text.toList.drop i).take t.val.raw.length = t.val.raw
  first : ∃ c, t.val.raw.head? = some c ∧ s.characters[i]? = some (c, t.span.first)
  last : ∃ c, t.val.raw.getLast? = some c ∧
    s.characters[i + (t.val.raw.length - 1)]? = some (c, t.span.last)

/-- The token of a segment, behind the text of the segments before it. -/
theorem madeOf_locate {s : Source} {hs gs : List Segment} {g : Segment}
    (h : s.segments = hs ++ g :: gs) (hne : g.token ≠ .eof) :
    s.MadeOf (g.locate (Position.start.afterAll (Segment.text hs)))
      (Segment.text hs ++ g.gap).length := by
  have hcut := s.segments_cut
  have htext := s.text_segments
  rw [h] at hcut htext
  have hwhole : g.token.Whole := hcut.whole_of_mem (by simp)
  obtain ⟨c, cs, hhead, -⟩ := hwhole.raw_eq_cons hne
  obtain ⟨inner, d, hraw⟩ := hwhole.exists_raw_concat hne
  have hsplit : s.text.toList =
      (Segment.text hs ++ g.gap) ++ (g.token.raw ++ Segment.text gs) := by
    rw [← htext]
    simp
  constructor
  case raw => simp [hsplit]
  case first =>
    refine ⟨c, by simp [hhead], ?_⟩
    have hfirst : s.text.toList =
        (Segment.text hs ++ g.gap) ++ c :: (cs ++ Segment.text gs) := by
      rw [hsplit, hhead, List.cons_append]
    rw [characters_of_split hfirst, Position.afterAll_append]
    rfl
  case last =>
    refine ⟨d, by simp [hraw], ?_⟩
    have hlast : s.text.toList =
        (Segment.text hs ++ g.gap ++ inner) ++ d :: Segment.text gs := by
      rw [hsplit, hraw]
      simp
    have hcharacters := characters_of_split hlast
    rw [Position.afterAll_append, Position.afterAll_append, List.length_append] at hcharacters
    simpa [Segment.locate, hraw] using hcharacters

/-- The locations of tokens are the coordinates of their characters. The `i`-th
character stands where walking over the ones before it leads; each token but `eof` is
located from the first to the last of the characters that it takes when the text is cut
as it has to be, and `eof` where walking over the whole text leads. So every token lies
on one line, and the tokens follow each other without overlap, whatever layout and
whatever unknown input lies between them. -/
theorem tokens_located (s : Source) :
    (∀ i, s.characters[i]? = s.text.toList[i]?.map fun c =>
      (c, Position.start.afterAll (s.text.toList.take i))) ∧
    Cut s.segments ∧ Segment.text s.segments = s.text.toList ∧
    (∀ (k : Nat) (t : Located Token), s.tokens[k]? = some t → t.val ≠ .eof →
      ∃ hs g gs, s.segments = hs ++ g :: gs ∧ hs.length = k ∧ g.token = t.val ∧
        s.MadeOf t (Segment.text hs ++ g.gap).length) ∧
    s.tokens.getLast? = some ⟨.eof, .point (Position.start.afterAll s.text.toList)⟩ ∧
    (∀ t ∈ s.tokens, t.span.first.line = t.span.last.line ∧ t.span.first ≤ t.span.last) ∧
    s.tokens.Pairwise fun t u => t.span.last < u.span.first := by
  refine ⟨s.characters_getElem?, s.segments_cut, s.text_segments, ?_, ?_, ?_, ?_⟩
  · intro k t ht hne
    rw [s.tokens_eq] at ht
    obtain ⟨hs, g, gs, happend, hk, rfl⟩ := Segment.exists_of_locateAll_getElem? ht
    exact ⟨hs, g, gs, happend, hk, rfl, madeOf_locate happend hne⟩
  · exact s.tokens_getLast?
  · intro t ht
    rw [s.tokens_eq] at ht
    obtain ⟨hs, g, gs, happend, rfl⟩ := Segment.exists_of_mem_locateAll ht
    have hwhole : g.token.Whole := s.segments_cut.whole_of_mem (by simp [happend])
    exact ⟨(Segment.line_locate hwhole _).symm, g.first_le_last_locate _⟩
  · rw [s.tokens_eq]
    exact Segment.locateAll_disjoint s.segments_cut .start

end Source

end BareBones
