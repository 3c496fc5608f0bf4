import BareBones.Proofs.Erasure
import BareBones.Proofs.Segments

/-!
Layout put into a text. Blanks, newlines and whole comments may be inserted where a
token begins or ends and at the end of the text: the text is then cut into the same
tokens, with newlines between them (`Cut.insert_before`, `Cut.insert_behind`), so it
is compiled to the same C text or refused with the same message
(`Source.compile_insert`). Only a text that its line does not close would take the
inserted characters for its own.
-/

namespace BareBones

open Segment (text)

/-- Blanks, newlines, and comments with the newline that ends them. -/
inductive Filler : List Char → Prop
  | nil : Filler []
  | blank {c : Char} {cs : List Char} : Cursor.isBlank c = true → Filler cs → Filler (c :: cs)
  | newline {cs : List Char} : Filler cs → Filler ('\n' :: cs)
  | comment {body cs : List Char} : '\n' ∉ body → Filler cs → Filler ('#' :: (body ++ '\n' :: cs))

namespace Filler

theorem blanks {bs cs : List Char} (hb : ∀ c ∈ bs, Cursor.isBlank c = true) (h : Filler cs) :
    Filler (bs ++ cs) := by
  induction bs with
  | nil => exact h
  | cons c bs ih =>
    obtain ⟨hc, hbs⟩ := List.forall_mem_cons.mp hb
    exact .blank hc (ih hbs)

/-- Behind its first newline there is again a filler. -/
theorem split {cs : List Char} (h : Filler cs) :
    '\n' ∉ cs ∨ ∃ line rest, cs = line ++ '\n' :: rest ∧ '\n' ∉ line ∧ Filler rest := by
  induction h with
  | nil => exact Or.inl (by simp)
  | @blank c cs hc _ ih =>
    have hn : '\n' ≠ c := by rintro rfl; revert hc; decide
    rcases ih with h | ⟨line, rest, rfl, hline, hrest⟩
    · exact Or.inl (by simp [hn, h])
    · exact Or.inr ⟨c :: line, rest, rfl, by simp [hn, hline], hrest⟩
  | newline h _ => exact Or.inr ⟨[], _, rfl, by simp, h⟩
  | @comment body cs hb h _ =>
    exact Or.inr ⟨'#' :: body, cs, rfl, by simpa using hb, h⟩

end Filler

/-- A text that its line does not close. -/
def Token.IsOpenText : Token → Prop
  | .unknown u => u.toList.head? = some '"'
  | _ => False

instance : DecidablePred Token.IsOpenText
  | .unknown u => inferInstanceAs (Decidable (u.toList.head? = some '"'))
  | .eof | .newline | .id _ | .number _ | .str _ | .punctuation _ | .operator _ | .keyword _ =>
    inferInstanceAs (Decidable False)

/-- No other token goes on with layout. -/
theorem Filler.endsBefore {cs : List Char} (h : Filler cs) {t : Token} (ht : ¬ t.IsOpenText) :
    ∀ c ∈ cs.head?, t.EndsBefore c := by
  have hlayout : ∀ c ∈ cs.head?, c.isAlphanum = false ∧ c.isDigit = false ∧ c ≠ '=' := by
    cases h with
    | nil => simp
    | blank hb =>
      simp only [List.head?_cons, Option.mem_some]
      rintro c rfl
      simp only [Cursor.isBlank, Bool.or_eq_true, decide_eq_true_eq] at hb
      rcases hb with (rfl | rfl) | rfl <;> decide
    | newline => simp
    | comment => simp
  intro c hc
  obtain ⟨ha, hd, he⟩ := hlayout c hc
  cases t with
  | id x => exact ha
  | keyword k => exact ha
  | number d => exact hd
  | unknown u => exact fun hu => absurd hu ht
  | operator op =>
    rcases op with _ | _ | op | op
    · exact he
    · exact he
    · trivial
    · cases op with
      | less | greater => exact he
      | and | or => exact ha
      | _ => trivial
  | _ => trivial

/-- A newline is part of no other token, not even of a text that its line does not close. -/
theorem Token.endsBefore_newline (t : Token) : t.EndsBefore '\n' := by
  by_cases h : t.IsOpenText
  · cases t with
    | unknown u => exact fun _ => rfl
    | _ => exact h.elim
  · exact (Filler.newline .nil).endsBefore h '\n' rfl

namespace Segment

/-- The tokens of some segments, newlines left out. -/
def words (gs : List Segment) : List Token := (gs.map (·.token)).filter (· ≠ .newline)

theorem words_cons (g : Segment) (gs : List Segment) :
    words (g :: gs) = if g.token = .newline then words gs else g.token :: words gs := by
  by_cases h : g.token = .newline <;> simp [words, h]

theorem words_append (gs hs : List Segment) : words (gs ++ hs) = words gs ++ words hs := by
  simp [words]

end Segment

open Segment (words words_cons words_append)

namespace Cut

theorem with_gap {gap gap' : List Char} {t : Token} {gs : List Segment} (h : Cut (⟨gap, t⟩ :: gs))
    (hg : IsGap gap' t) : Cut (⟨gap', t⟩ :: gs) := by
  cases h with
  | last _ => exact .last hg
  | cons hne _ hw hr hgs => exact .cons hne hg hw hr hgs

theorem isGap {g : Segment} {gs : List Segment} (h : Cut (g :: gs)) : IsGap g.gap g.token := by
  cases h with
  | last hg => exact hg
  | cons _ hg => exact hg

theorem whole {g : Segment} {gs : List Segment} (h : Cut (g :: gs)) : g.token.Whole := by
  cases h with
  | last => trivial
  | cons _ _ hw => exact hw

/-- A filler before a text adds nothing but newlines to its tokens. -/
theorem fill {gs : List Segment} (h : Cut gs) {cs : List Char} (hf : Filler cs) :
    ∃ hs, Cut hs ∧ text hs = cs ++ text gs ∧ words hs = words gs := by
  induction hf with
  | nil => exact ⟨gs, h, rfl, rfl⟩
  | @blank c cs hc _ ih =>
    obtain ⟨hs, hcut, htext, hwords⟩ := ih
    cases hs with
    | nil => cases hcut
    | cons g hs =>
      refine ⟨⟨c :: g.gap, g.token⟩ :: hs, hcut.with_gap (hcut.isGap.blank hc), ?_, ?_⟩
      · simpa using htext
      · rw [← hwords, words_cons, words_cons]
  | newline _ ih =>
    obtain ⟨hs, hcut, htext, hwords⟩ := ih
    refine ⟨⟨[], .newline⟩ :: hs, ?_, by simp [Token.raw, htext], ?_⟩
    · exact .cons (by simp) (.nil _) trivial (fun _ _ => trivial) hcut
    · rw [words_cons, if_pos rfl, hwords]
  | @comment body cs hb _ ih =>
    obtain ⟨hs, hcut, htext, hwords⟩ := ih
    refine ⟨⟨'#' :: body, .newline⟩ :: hs, ?_, by simp [Token.raw, htext], ?_⟩
    · exact .cons (by simp) (.comment hb (Or.inl rfl)) trivial (fun _ _ => trivial) hcut
    · rw [words_cons, if_pos rfl, hwords]

/-- So does a filler between the first token of a text and the layout before it. -/
theorem fill_gap {g : Segment} {gs : List Segment} (h : Cut (g :: gs)) {cs : List Char}
    (hf : Filler cs) : ∃ hs, Cut hs ∧ text hs = g.gap ++ (cs ++ (g.token.raw ++ text gs)) ∧
      words hs = words (g :: gs) := by
  obtain ⟨gap, t⟩ := g
  obtain ⟨blanks, comment, rfl, hb, rfl | ⟨body, rfl, hbody, ht⟩⟩ := h.isGap
  · obtain ⟨hs, hcut, htext, hwords⟩ := (h.with_gap (.nil t)).fill (hf.blanks hb)
    exact ⟨hs, hcut, by simp [htext], by rw [hwords, words_cons, words_cons]⟩
  · -- the comment goes on to the first newline of the filler
    have hgap {body : List Char} (hn : '\n' ∉ body) {t : Token} (ht : t = .newline ∨ t = .eof) :
        IsGap (blanks ++ '#' :: body) t := ⟨blanks, _, rfl, hb, Or.inr ⟨body, rfl, hn, ht⟩⟩
    rcases hf.split with hn | ⟨line, rest, rfl, hline, hrest⟩
    · refine ⟨⟨blanks ++ '#' :: (body ++ cs), t⟩ :: gs, h.with_gap (hgap ?_ ht), by simp, ?_⟩
      · simp [hbody, hn]
      · rw [words_cons, words_cons]
    · obtain ⟨hs, hcut, htext, hwords⟩ := (h.with_gap (.nil t)).fill hrest
      refine ⟨⟨blanks ++ '#' :: (body ++ line), .newline⟩ :: hs, ?_, ?_, ?_⟩
      · exact .cons (by simp) (hgap (by simp [hbody, hline]) (Or.inl rfl)) trivial
          (fun _ _ => trivial) hcut
      · simp [Token.raw, htext]
      · rw [words_cons, if_pos rfl, hwords, words_cons, words_cons]

/-- A segment with others behind it. -/
theorem uncons {g : Segment} {gs : List Segment} (h : Cut (g :: gs)) (hne : gs ≠ []) :
    g.token ≠ .eof ∧ g.token.Whole ∧ (∀ c ∈ (text gs).head?, g.token.EndsBefore c) ∧ Cut gs := by
  cases h with
  | last => exact absurd rfl hne
  | cons ht _ hw hr hgs => exact ⟨ht, hw, hr, hgs⟩

/-- The end of a cut text is cut, and what stands before it ends there. -/
theorem of_append {hs gs : List Segment} (h : Cut (hs ++ gs)) (hne : gs ≠ []) :
    Cut gs ∧ ∀ g ∈ hs.getLast?, ∀ c ∈ (text gs).head?, g.token.EndsBefore c := by
  induction hs with
  | nil => exact ⟨h, by simp⟩
  | cons g hs ih =>
    obtain ⟨-, -, hr, hrest⟩ := uncons h (by simp [hne])
    obtain ⟨hcut, hlast⟩ := ih hrest
    refine ⟨hcut, ?_⟩
    cases hs with
    | nil => simpa using hr
    | cons g' hs => rwa [List.getLast?_cons_cons]

/-- Each token of a cut text takes the characters of its class. -/
theorem whole_of_mem {gs : List Segment} (h : Cut gs) {g : Segment} (hg : g ∈ gs) :
    g.token.Whole := by
  obtain ⟨hs, rest, rfl⟩ := List.append_of_mem hg
  exact (h.of_append (by simp)).1.whole

/-- The end of a cut text may be replaced, if what stands before it still ends there. -/
theorem replace {hs gs gs' : List Segment} (h : Cut (hs ++ gs)) (hne : gs ≠ []) (h' : Cut gs')
    (hj : ∀ g ∈ hs.getLast?, ∀ c ∈ (text gs').head?, g.token.EndsBefore c) : Cut (hs ++ gs') := by
  induction hs with
  | nil => exact h'
  | cons g hs ih =>
    obtain ⟨ht, hw, hr, hrest⟩ := uncons h (by simp [hne])
    cases hs with
    | nil => exact .cons ht h.isGap hw (by simpa using hj) h'
    | cons g' hs =>
      refine .cons ht h.isGap hw ?_ (ih hrest ?_)
      · -- the token of `g'` is not the last one, so it has a first character
        obtain ⟨ht', hw', -, -⟩ := uncons hrest (by simp [hne])
        obtain ⟨c, cs, hraw, -⟩ := hw'.raw_eq_cons ht'
        have hhead (rest : List Segment) :
            (text (g' :: rest)).head? = (g'.gap ++ [c]).head? := by
          simp [hraw]
        intro d hd
        exact hr d ((hhead _).trans ((hhead _).symm.trans hd))
      · rwa [List.getLast?_cons_cons] at hj

/-- Layout may be put before a token, unless a text without its closing quote ends there. -/
theorem insert_before {hs gs : List Segment} {g : Segment} (h : Cut (hs ++ g :: gs))
    {cs : List Char} (hf : Filler cs)
    (hj : ∀ g' ∈ hs.getLast?, g'.token.IsOpenText → g.gap ≠ []) :
    ∃ gs', Cut gs' ∧ text gs' = text hs ++ g.gap ++ (cs ++ (g.token.raw ++ text gs)) ∧
      words gs' = words (hs ++ g :: gs) := by
  obtain ⟨hcut, hends⟩ := h.of_append (by simp)
  obtain ⟨gs', hcut', htext, hwords⟩ := hcut.fill_gap hf
  refine ⟨hs ++ gs', h.replace (by simp) hcut' ?_, by simp [htext], ?_⟩
  · intro g' hg' c hc
    rw [htext] at hc
    cases hgap : g.gap with
    | nil =>
      have hclosed : ¬ g'.token.IsOpenText := fun hopen => hj g' hg' hopen hgap
      rw [hgap, List.nil_append] at hc
      cases cs with
      | nil => exact hends g' hg' c (by simpa [hgap] using hc)
      | cons d ds => exact hf.endsBefore hclosed c (by simpa using hc)
    | cons d ds => exact hends g' hg' c (by simpa [hgap] using hc)
  · rw [words_append, words_append, hwords]

/-- Layout may be put behind a token other than such a text. -/
theorem insert_behind {hs gs : List Segment} {g : Segment} (h : Cut (hs ++ g :: gs))
    (hne : g.token ≠ .eof) {cs : List Char} (hf : Filler cs) (hj : ¬ g.token.IsOpenText) :
    ∃ gs', Cut gs' ∧ text gs' = text hs ++ (g.gap ++ g.token.raw) ++ (cs ++ text gs) ∧
      words gs' = words (hs ++ g :: gs) := by
  have hgs : gs ≠ [] := by
    obtain ⟨hcut, -⟩ := h.of_append (by simp)
    rintro rfl
    cases hcut with
    | last => exact hne rfl
    | cons _ _ _ _ hnil => cases hnil
  rw [List.append_cons] at h
  obtain ⟨hcut, hends⟩ := h.of_append hgs
  obtain ⟨gs', hcut', htext, hwords⟩ := hcut.fill hf
  refine ⟨hs ++ [g] ++ gs', h.replace hgs hcut' ?_, by simp [htext], ?_⟩
  · intro g' hg' c hc
    rw [htext] at hc
    cases cs with
    | nil => exact hends g' hg' c hc
    | cons d ds =>
      obtain rfl : g = g' := by simpa using hg'
      exact hf.endsBefore hj c (by simpa using hc)
  · rw [words_append, hwords, ← words_append, ← List.append_cons]

end Cut

/-! ## Sources -/

namespace Source

/-- The token `t` takes the characters of the text from the `i`-th to before the `j`-th. -/
def Occupies (s : Source) (t : Token) (i j : Nat) : Prop :=
  ∃ (hs : List Segment) (g : Segment) (gs : List Segment), s.segments = hs ++ g :: gs ∧
    g.token = t ∧ i = (Segment.text hs ++ g.gap).length ∧ j = i + t.raw.length

/-- A place where a token begins or ends, or the end of the text; but not the end of a text
that its line does not close. -/
structure Seam (s : Source) (o : Nat) : Prop where
  edge : o = s.text.toList.length ∨ ∃ t i j, s.Occupies t i j ∧ (o = i ∨ o = j)
  closed : ∀ t i, s.Occupies t i o → ¬ t.IsOpenText

/-- The text with other characters before its `o`-th one. -/
def insert (s : Source) (o : Nat) (inserted : String) : Source :=
  ⟨s.name, String.ofList (s.text.toList.take o ++ (inserted.toList ++ s.text.toList.drop o))⟩

theorem words_segments (s : Source) : Segment.words s.segments = s.words ++ [.eof] := by
  obtain ⟨ts, e, hs, he, -, hw⟩ := s.words_eq
  rw [Segment.words, s.segments_tokens, hs, hw, wordsOf, List.map_append, List.filter_append]
  simp [he]

/-- The end of the text is where `eof` stands. -/
theorem occupies_eof (s : Source) : s.Occupies .eof s.text.toList.length s.text.toList.length := by
  have hmem : Token.eof ∈ s.segments.map (·.token) := by
    obtain ⟨ts, e, hs, he, -⟩ := s.tokens_eq_append
    simp [s.segments_tokens, hs, he]
  obtain ⟨g, hg, ht⟩ := List.mem_map.mp hmem
  obtain ⟨hs, gs, happend⟩ := List.append_of_mem hg
  have hcut := s.segments_cut
  have htext := s.text_segments
  rw [happend] at hcut htext
  obtain rfl : gs = [] := by
    refine Classical.byContradiction fun hne => ?_
    exact (Cut.uncons (hcut.of_append (by simp)).1 hne).1 ht
  refine ⟨hs, g, [], happend, ht, ?_, rfl⟩
  rw [← htext]
  simp [ht, Token.raw]

/-- A seam is where a token begins, or where one that has characters ends. -/
theorem Seam.exists_occupies {s : Source} {o : Nat} (h : s.Seam o) :
    ∃ t i j, s.Occupies t i j ∧ (o = i ∨ o = j ∧ t ≠ .eof) := by
  rcases h.edge with ho | ⟨t, i, j, hocc, ho⟩
  · exact ⟨_, _, _, s.occupies_eof, Or.inl ho⟩
  · refine ⟨t, i, j, hocc, ?_⟩
    by_cases ht : t = .eof
    · obtain ⟨_, _, _, -, -, -, hj⟩ := hocc
      have hij : j = i := by simpa [ht, Token.raw] using hj
      exact Or.inl (by omega)
    · exact ho.imp_right fun hj => ⟨hj, ht⟩

/-- The new text has the words that one can cut it into. -/
theorem words_insert_of_cut {s : Source} {o : Nat} {inserted : String} {gs : List Segment}
    (hcut : Cut gs) {before after : List Char}
    (ht : Segment.text gs = before ++ (inserted.toList ++ after)) (ho : o = before.length)
    (hs : s.text.toList = before ++ after) (hw : Segment.words gs = Segment.words s.segments) :
    (s.insert o inserted).words = s.words := by
  have hgs : gs = (s.insert o inserted).segments := by
    refine segments_eq_of_cut hcut ?_
    rw [ht, insert, String.toList_ofList, hs, ho]
    simp
  rw [hgs, words_segments, words_segments] at hw
  exact List.append_cancel_right hw

/-- Layout put at a seam leaves the words as they are. -/
theorem words_insert {s : Source} {o : Nat} (h : s.Seam o) {filler : String}
    (hf : Filler filler.toList) : (s.insert o filler).words = s.words := by
  obtain ⟨t, i, j, hocc, ho⟩ := h.exists_occupies
  have hcut := s.segments_cut
  have htext := s.text_segments
  obtain ⟨hs, g, gs, happend, rfl, hi, hj⟩ := hocc
  rw [happend] at hcut htext
  rcases ho with rfl | ⟨rfl, hne⟩
  · have hopens : ∀ g' ∈ hs.getLast?, g'.token.IsOpenText → g.gap ≠ [] := by
      -- otherwise a text that is not closed would end here
      intro g' hg' hopen hgap
      obtain ⟨hs', rfl⟩ := List.getLast?_eq_some_iff.mp hg'
      have hends : s.Occupies g'.token (Segment.text hs' ++ g'.gap).length o := by
        refine ⟨hs', g', g :: gs, by rw [happend, List.append_assoc]; rfl, rfl, rfl, ?_⟩
        rw [hi, hgap]
        simp [Nat.add_assoc]
      exact h.closed _ _ hends hopen
    obtain ⟨gs', hcut', htext', hwords⟩ := hcut.insert_before hf hopens
    exact words_insert_of_cut hcut' htext' hi (by rw [← htext]; simp) (by rw [hwords, happend])
  · have hopens := h.closed g.token i ⟨hs, g, gs, happend, rfl, hi, hj⟩
    obtain ⟨gs', hcut', htext', hwords⟩ := hcut.insert_behind hne hf hopens
    refine words_insert_of_cut hcut' htext' ?_ (by rw [← htext]; simp) (by rw [hwords, happend])
    rw [hj, hi]
    simp [Nat.add_assoc]

/-- Layout put at a seam changes neither the C text that a source is compiled to nor, if
it is refused, the kind of the error and its message. -/
theorem compile_insert {s : Source} {o : Nat} (h : s.Seam o) {filler : String}
    (hf : Filler filler.toList) (f : C.Format) :
    ((s.insert o filler).compile f).mapError Report.gist = (s.compile f).mapError Report.gist :=
  compile_of_words (words_insert h hf) f

/-- Its first line has 23 characters and ends with a comment. -/
def countdown : Source where
  name := "countdown"
  text := "let x = 3; # from three\nwhile (!(x<=0)) \x7b print(x); x=x-1; \x7d"

theorem compile_insert_countdown :
    countdown.Seam 23 ∧ Filler "\t# or two\n\n".toList ∧
      ((countdown.insert 23 "\t# or two\n\n").compile .compact).mapError Report.gist =
        (countdown.compile .compact).mapError Report.gist := by
  have hs : countdown.segments = [⟨[], .keyword .let_⟩, ⟨[' '], .id "x"⟩, ⟨[' '], .assign⟩,
      ⟨[' '], .number "3"⟩, ⟨[], .semicolon⟩] ++ ⟨" # from three".toList, .newline⟩ ::
        countdown.segments.drop 6 := by
    decide +kernel
  have hclosed : ∀ g ∈ countdown.segments, ¬ g.token.IsOpenText := by decide +kernel
  have hseam : countdown.Seam 23 := by
    refine ⟨Or.inr ⟨.newline, 23, 24, ⟨_, _, _, hs, rfl, rfl, rfl⟩, Or.inl rfl⟩, ?_⟩
    rintro t i ⟨hs, g, gs, happend, rfl, -⟩
    exact hclosed g (by simp [happend])
  have hf : Filler "\t# or two\n\n".toList :=
    .blank (by decide) (@Filler.comment " or two".toList _ (by decide) (.newline .nil))
  exact ⟨hseam, hf, compile_insert hseam hf .compact⟩

end Source

end BareBones
