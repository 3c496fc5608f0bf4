import BareBones.Proofs.Reading
import BareBones.Proofs.Scan

/-!
Which sources are read as programs: exactly those whose words form a sentence of
the grammar, with every number in range and every name declared once and before
its use. The tree then spells the words it was read from.
-/

namespace BareBones

open Grammar

/-! ## Newlines and the end of the text -/

theorem Progress.feedAll_filter (p : Progress) (ts : List (Located Token)) :
    p.feedAll (ts.filter (·.val ≠ .newline)) = p.feedAll ts := by
  induction ts generalizing p with
  | nil => rfl
  | cons t ts ih =>
    by_cases ht : t.val = .newline
    · rw [List.filter_cons_of_neg (by simp [ht]), ih]
      simp only [feedAll, feed, if_pos ht]
    · rw [List.filter_cons_of_pos (by simp [ht])]
      simp only [feedAll, ih]

theorem wordsOf_eq_map (ts : List (Located Token)) :
    wordsOf ts = (ts.filter (·.val ≠ .newline)).map (·.val) := by
  rw [wordsOf, List.filter_map]
  rfl

/-- A source is its words, with newlines between them, and `eof`. -/
theorem Source.words_eq (s : Source) :
    ∃ ts e, s.tokens = ts ++ [e] ∧ e.val = .eof ∧
      (∀ t ∈ ts, t.val ≠ .eof ∧ t.val.WellFormed) ∧ s.words = wordsOf ts := by
  obtain ⟨ts, e, hs, he, hts⟩ := s.tokens_eq_append
  refine ⟨ts, e, hs, he, hts, ?_⟩
  have hall : ∀ t ∈ ts.map (·.val), decide (t ≠ .eof) = true := by
    intro t ht
    obtain ⟨u, hu, rfl⟩ := List.mem_map.mp ht
    simpa using (hts u hu).1
  rw [Source.words, wordsOf, hs, List.map_append, List.takeWhile_append_of_pos hall]
  simp [he]

/-- The states that reading a program goes through. -/
theorem Source.parse_eq_ok {s : Source} {p : Program} (h : s.parse = .ok p) :
    ∃ ts e q r, s.tokens = ts ++ [e] ∧ e.val = .eof ∧ (∀ t ∈ ts, t.val ≠ .eof) ∧
      s.words = wordsOf ts ∧ Progress.start.feedAll ts = .ok q ∧ q.step e = .ok r ∧
      p = r.program := by
  obtain ⟨ts, e, hs, he, hts, hw⟩ := s.words_eq
  rw [Source.parse, BareBones.parse, hs, Progress.feedAll_append] at h
  cases hq : Progress.start.feedAll ts with
  | error err => rw [hq] at h; cases h
  | ok q =>
    rw [hq] at h
    have hne : e.val ≠ .newline := by rw [he]; simp
    cases hr : q.step e with
    | error err =>
      simp only [Except.bind, Progress.feedAll, Progress.feed, if_neg hne, hr] at h
      cases h
    | ok r =>
      simp only [Except.bind, Progress.feedAll, Progress.feed, if_neg hne, hr] at h
      cases h
      exact ⟨ts, e, q, r, hs, he, fun t ht => (hts t ht).1, hw, hq, hr, rfl⟩

/-! ## Acceptance -/

/-- What is accepted has been spelled out, number by number and name by name. -/
theorem Source.parse_spelled {s : Source} {p : Program} (h : s.parse = .ok p) :
    (Statement.tokensAll p.statements).map Token.reading = s.words.map Token.reading ∧
      LiteralsFit s.words ∧ WellNamed s.words := by
  obtain ⟨ts, e, q, r, -, he, hts, hw, hq, hr, rfl⟩ := Source.parse_eq_ok h
  have ha := Progress.feedAll_advances hts hq
  rw [← hw] at ha
  obtain ⟨v, hv, hvr⟩ := ha.spelled
  refine ⟨?_, ha.fits, ?_⟩
  · rcases Progress.step_advance hr with hadv | ⟨_, hfin⟩
    · exact absurd he hadv.ne_eof
    · have hq' : q.spelled = v := hv
      rw [← hvr, ← hq', hfin.spelled]
      rfl
  · rw [← Naming.run_isSome_iff]
    have hn : Naming.run {} s.words = some q.naming := ha.named
    rw [hn]
    rfl

/-- The declared names are those that follow a `let`. -/
theorem Source.mem_declarations_iff {s : Source} {p : Program} (h : s.parse = .ok p)
    (x : String) : x ∈ p.declarations ↔ ∃ i, DeclaresAt s.words i x := by
  obtain ⟨ts, e, q, r, -, he, hts, hw, hq, hr, rfl⟩ := Source.parse_eq_ok h
  have ha := Progress.feedAll_advances hts hq
  have hn : Naming.run {} s.words = some q.naming := hw ▸ ha.named
  have hdeclared := (Naming.tracks_start.run hn).declared x
  rw [List.nil_append] at hdeclared
  rcases Progress.step_advance hr with hadv | ⟨_, hfin⟩
  · exact absurd he hadv.ne_eof
  · rw [← hdeclared, Progress.program, hfin.scope]
    exact List.mem_reverse

theorem Source.wellFormed_of_mem_words {s : Source} {t : Token} (h : t ∈ s.words) :
    t.WellFormed := by
  obtain ⟨ts, e, -, -, hts, hw⟩ := s.words_eq
  rw [hw, wordsOf_eq_map] at h
  obtain ⟨u, hu, rfl⟩ := List.mem_map.mp h
  exact (hts u (List.mem_filter.mp hu).1).2

theorem Source.isName_of_mem_declarations {s : Source} {p : Program} (h : s.parse = .ok p)
    {x : String} (hx : x ∈ p.declarations) : IsName x := by
  obtain ⟨i, -, hi⟩ := (Source.mem_declarations_iff h x).mp hx
  exact (Source.wellFormed_of_mem_words (List.mem_of_getElem? hi)).1

/-- Every name of the tree is declared. -/
theorem Source.mem_declarations_of_mem_tokens {s : Source} {p : Program} (h : s.parse = .ok p)
    {x : String} (hx : Token.id x ∈ Statement.tokensAll p.statements) : x ∈ p.declarations := by
  obtain ⟨hspelled, -, hnamed⟩ := Source.parse_spelled h
  have hread := List.mem_map_of_mem (f := Token.reading) hx
  rw [hspelled] at hread
  obtain ⟨t, ht, htx⟩ := List.mem_map.mp hread
  have hword : Token.id x ∈ s.words := by
    cases t <;> cases htx
    exact ht
  rw [Source.mem_declarations_iff h]
  obtain ⟨i, hi⟩ := List.mem_iff_getElem?.mp hword
  rcases hnamed.declared i x hi with ⟨j, rfl, hj⟩ | ⟨j, -, hj⟩
  · exact ⟨j, hj, hi⟩
  · exact ⟨j, hj⟩

theorem Token.terminal_eq_of_reading {t u : Token} (h : t.reading = u.reading) :
    t.terminal = u.terminal := by
  cases t <;> cases u <;> simp_all [Token.reading]

theorem map_terminal_eq_of_reading {w v : List Token}
    (h : w.map Token.reading = v.map Token.reading) :
    w.map Token.terminal = v.map Token.terminal := by
  induction w generalizing v with
  | nil =>
    obtain rfl := List.map_eq_nil_iff.mp h.symm
    rfl
  | cons t w ih =>
    obtain ⟨u, v, rfl, ht, hv⟩ := List.map_eq_cons_iff.mp h.symm
    rw [List.map_cons, List.map_cons, Token.terminal_eq_of_reading ht, ih hv.symm]

/-- Sentences with numbers in range are accepted, unless a name is refused. -/
theorem Source.parse_of_derives {s : Source}
    (hd : Derives .program ((s.words ++ [Token.eof]).map Token.terminal))
    (hl : LiteralsFit s.words) :
    (∃ p, s.parse = .ok p) ∨ ¬ WellNamed s.words ∧ ∃ n span, s.parse = .error ⟨.name n, span⟩ := by
  obtain ⟨ts, e, hs, he, -, hw⟩ := s.words_eq
  obtain ⟨v, hv, hreads⟩ := Progress.readable_of_derives hd
  have hv' : (ts.filter (·.val ≠ .newline)).map (·.val.terminal) = v := by
    rw [hw, wordsOf_eq_map, List.map_append, List.map_map] at hv
    exact List.append_inj_left' hv rfl
  have hwords : (ts.filter (·.val ≠ .newline)).map (·.val) = s.words := by
    rw [hw, wordsOf_eq_map]
  rw [Source.parse, BareBones.parse, hs, Progress.feedAll_append]
  rcases hreads Progress.start trivial _ hv' (hwords ▸ hl) with
    ⟨q, hq, -, hready, hframes⟩ | ⟨n, span, herror, hnone⟩
  · rw [Progress.feedAll_filter] at hq
    have hstep : q.step e = .ok q.settle := hready.step_eof hframes he
    have hne : e.val ≠ .newline := by rw [he]; simp
    refine Or.inl ⟨q.settle.program, ?_⟩
    rw [hq]
    simp only [Except.bind, Progress.feedAll, Progress.feed, if_neg hne, hstep]
    rfl
  · rw [Progress.feedAll_filter] at herror
    refine Or.inr ⟨?_, n, span, by rw [herror]; rfl⟩
    have hrun : Naming.run {} s.words = none := hwords ▸ hnone
    rw [← Naming.run_isSome_iff, hrun]
    simp

/-- Sentences with numbers and names in order are accepted. -/
theorem Source.parse_of_sentence {s : Source}
    (hd : Derives .program ((s.words ++ [Token.eof]).map Token.terminal))
    (hl : LiteralsFit s.words) (hn : WellNamed s.words) : ∃ p, s.parse = .ok p :=
  (Source.parse_of_derives hd hl).resolve_right fun h => h.1 hn

/-- A source is accepted exactly when its words are a sentence of the grammar, its
numbers are in range and its names are declared once and before they are used.
The statements of an accepted program, written out, are the words it was read
from, numbers compared by value. -/
theorem Source.parse_ok_iff_sentence (s : Source) :
    ((∃ p, s.parse = .ok p) ↔
      Derives .program ((s.words ++ [Token.eof]).map Token.terminal) ∧
        LiteralsFit s.words ∧ WellNamed s.words) ∧
    ∀ p, s.parse = .ok p →
      (Statement.tokensAll p.statements).map Token.reading = s.words.map Token.reading := by
  refine ⟨⟨?_, fun ⟨hd, hl, hn⟩ => Source.parse_of_sentence hd hl hn⟩,
    fun p h => (Source.parse_spelled h).1⟩
  rintro ⟨p, h⟩
  obtain ⟨hr, hl, hn⟩ := Source.parse_spelled h
  refine ⟨?_, hl, hn⟩
  rw [List.map_append, ← map_terminal_eq_of_reading hr]
  exact .program (Statement.tokensAll_derives p.statements)

end BareBones
