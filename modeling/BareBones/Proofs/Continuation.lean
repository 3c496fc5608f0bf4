import BareBones.Proofs.Growth
import BareBones.Proofs.Insertion
import BareBones.Proofs.NameFaults
import BareBones.Proofs.Nesting
import BareBones.Proofs.Placement

/-!
A source that goes on. If a text stands behind an accepted one, on lines of its own, the
tokens of both stand one behind the other, those of the second moved down
(`Source.significant_continued`). What the first one says is then settled, unless an
`else` follows: its statements, names and lines are the first of the whole, and a fault
is found in the second text (`Source.continued_exact`).
-/

namespace BareBones

open C

/-! ## Texts one behind the other -/

namespace Cut

/-- The last segment holds the end of the text. -/
theorem exists_last {gs : List Segment} (h : Cut gs) :
    ∃ hs gap, gs = hs ++ [⟨gap, .eof⟩] ∧ IsGap gap .eof := by
  induction h with
  | last hg => exact ⟨[], _, rfl, hg⟩
  | @cons gap t gs _ _ _ _ _ ih =>
    obtain ⟨hs, gap', rfl, hg⟩ := ih
    exact ⟨⟨gap, t⟩ :: hs, gap', rfl, hg⟩

/-- A newline and another text may stand where a text ends. -/
theorem join {hs gs : List Segment} {gap : List Char} (h : Cut (hs ++ [⟨gap, .eof⟩]))
    (h' : Cut gs) : Cut (hs ++ ⟨gap, .newline⟩ :: gs) := by
  obtain ⟨hlast, hends⟩ := h.of_append (by simp)
  have hgap : IsGap gap .newline := by
    obtain ⟨blanks, comment, hcs, hb, hc⟩ := hlast.isGap
    refine ⟨blanks, comment, hcs, hb, hc.imp_right ?_⟩
    rintro ⟨body, hbody, hn, -⟩
    exact ⟨body, hbody, hn, Or.inl rfl⟩
  refine h.replace (by simp) (.cons (by simp) hgap trivial (fun _ _ => trivial) h') ?_
  intro g hg c hc
  cases gap with
  | nil =>
    obtain rfl : c = '\n' := by simpa [Token.raw, eq_comm] using hc
    exact g.token.endsBefore_newline
  | cons d gap => exact hends g hg c (by simpa using hc)

end Cut

namespace Source

/-- The source with the text of `q` behind its own, on the lines that follow. -/
def continued (s q : Source) : Source := ⟨s.name, s.text ++ "\n" ++ q.text⟩

theorem segments_continued (s q : Source) {hs : List Segment} {gap : List Char}
    (h : s.segments = hs ++ [⟨gap, .eof⟩]) :
    (s.continued q).segments = hs ++ ⟨gap, .newline⟩ :: q.segments := by
  have hcut := s.segments_cut
  have htext := s.text_segments
  rw [h] at hcut htext
  refine (segments_eq_of_cut (hcut.join q.segments_cut) ?_).symm
  simp only [Segment.text_append, Segment.text_cons, Segment.text_nil, Token.raw] at htext ⊢
  rw [q.text_segments, continued, String.toList_append, String.toList_append, ← htext]
  simp

/-- The tokens of the second text follow those of the first, below its last line. -/
theorem significant_continued (s q : Source) :
    (s.continued q).significant =
      s.significant.dropLast ++ q.significant.map (·.down s.ending.line) := by
  obtain ⟨hs, gap, hsegments, -⟩ := s.segments_cut.exists_last
  have hending : Position.start.afterAll (Segment.text hs ++ gap) = s.ending := by
    rw [ending, ← s.text_segments, hsegments]
    simp [Token.raw]
  have hbelow : Position.start.afterAll (Segment.text (hs ++ [⟨gap, .newline⟩])) =
      Position.start.down s.ending.line := by
    rw [Segment.text_append, Segment.text_cons, ← List.append_assoc, Position.afterAll_append,
      hending]
    simp [Token.raw, Position.after_newline, Position.down, Position.start, Nat.add_comm]
  have hjoined : (s.continued q).tokens = Segment.locateAll .start hs ++
      Segment.locate (Position.start.afterAll (Segment.text hs)) ⟨gap, .newline⟩ ::
        q.tokens.map (·.down s.ending.line) := by
    rw [tokens_eq, s.segments_continued q hsegments, List.append_cons, Segment.locateAll_append,
      hbelow, Segment.locateAll_down, ← q.tokens_eq, Segment.locateAll_append]
    simp [Segment.locateAll]
  have hmap : (q.tokens.map (·.down s.ending.line)).filter (·.val ≠ .newline) =
      q.significant.map (·.down s.ending.line) := by
    rw [significant, List.filter_map]
    rfl
  have hown : s.significant.dropLast = (Segment.locateAll .start hs).filter (·.val ≠ .newline) := by
    rw [significant, tokens_eq, hsegments, Segment.locateAll_append, List.filter_append]
    simp [Segment.locateAll, Segment.locate]
  rw [significant, hjoined, List.filter_append, hown, List.filter_cons_of_neg (by simp), hmap]

end Source

/-! ## Reading on -/

namespace Progress

theorem step_settle {p : Progress} (h : p.Ready) (t : Located Token) :
    p.settle.step t = p.settle.stepStatement t := by
  unfold Ready at h
  unfold step settle
  split at h <;> rename_i hf
  · simp only [hf]
  · simp only [hf]
  · simp only [hf, complete]
  · exact h.elim

/-- The end of the text is accepted between two statements only. -/
theorem ready_of_step_eof {p q : Progress} {e : Located Token} (he : e.val = .eof)
    (h : p.step e = .ok q) : p.Ready ∧ q.frames = [] ∧ q = p.settle := by
  obtain ⟨_, span⟩ := e
  cases he
  have hready : p.Ready := by
    unfold step at h
    unfold Ready
    cases hf : p.focus <;> rw [hf] at h
    case start | statement | afterThen => trivial
    case chain into groups value => cases groups <;> cases h
    case condition test groups links focus => cases focus <;> cases groups <;> cases h
    all_goals cases h
  have hframes : q.frames = [] := by
    rcases step_advance h with hadv | ⟨-, hfin⟩
    · exact absurd rfl hadv.ne_eof
    · exact hfin.frames
  rw [hready.step_eq _ (by simp)] at h
  simp only [stepStatement] at h
  split at h
  · cases h
    exact ⟨hready, hframes, rfl⟩
  · exact absurd h (refuse_ne_ok _ _ _)

/-- Without an `else` it makes no difference that an `if` may still go on. -/
theorem feedAll_settle {p : Progress} (h : p.Ready) {t : Located Token}
    (hn : t.val ≠ .newline) (he : t.val ≠ .keyword .else_) (ts : List (Located Token)) :
    p.feedAll (t :: ts) = p.settle.feedAll (t :: ts) := by
  rw [feedAll, feedAll, p.feed_of_ne_newline hn, p.settle.feed_of_ne_newline hn, h.step_eq t he,
    step_settle h]

end Progress

namespace Source

/-- A text that is accepted leaves the reader between two statements. -/
theorem feedAll_of_parse {s : Source} {p : Program} (h : s.parse = .ok p) :
    ∃ r, Progress.start.feedAll s.significant.dropLast = .ok r ∧ r.Ready ∧
      Progress.start.feedAll s.significant = .ok r.settle ∧ r.settle.frames = [] ∧
      r.settle.program = p := by
  obtain ⟨ts, e, hs, he, -, -⟩ := s.significant_eq
  rw [parse_significant, BareBones.parse] at h
  cases hq : Progress.start.feedAll s.significant with
  | error err =>
    rw [hq] at h
    cases h
  | ok q =>
    rw [hq] at h
    cases h
    rw [hs] at hq
    obtain ⟨r, hr, hstep⟩ := Progress.feedAll_concat (by simp [he]) hq
    obtain ⟨hready, hframes, rfl⟩ := Progress.ready_of_step_eof he hstep
    exact ⟨r, by rw [hs, List.dropLast_concat, hr], hready, rfl, hframes, rfl⟩

/-- Tokens stand in the order of the text. -/
theorem significant_pairwise (s : Source) :
    s.significant.Pairwise fun t u => t.span.first ≤ u.span.first := by
  rw [significant, s.tokens_eq]
  exact (Segment.locateAll_pairwise .start s.segments).filter _

theorem words_continued (s q : Source) : (s.continued q).words = s.words ++ q.words := by
  obtain ⟨ts, e, hs, -, -, hw⟩ := s.significant_eq
  obtain ⟨us, f, hq, -, -, hv⟩ := q.significant_eq
  obtain ⟨vs, g, hsq, -, -, hsw⟩ := (s.continued q).significant_eq
  have happend : ts ++ us.map (·.down s.ending.line) ++ [f.down s.ending.line] = vs ++ [g] := by
    rw [← hsq, s.significant_continued q, hs, hq, List.dropLast_concat]
    simp
  rw [hsw, ← List.append_inj_left' happend rfl, hw, hv, List.map_append, List.map_map]
  rfl

/-- A token at which reading stops is none of those that have been read. -/
theorem mem_of_feedAll_error {ts us before after : List (Located Token)} {u : Located Token}
    {r r' : Progress} {e : Located ParseError} (hts : Progress.start.feedAll ts = .ok r)
    (hsplit : ts ++ us = before ++ u :: after) (hbefore : Progress.start.feedAll before = .ok r')
    (hu : r'.feed u = .error e) : u ∈ us := by
  rcases List.append_eq_append_iff.mp hsplit with ⟨more, -, hus⟩ | ⟨more, rfl, hmore⟩
  · rw [hus]
    simp
  · cases more with
    | nil =>
      rw [List.nil_append] at hmore
      simp [← hmore]
    | cons v more =>
      obtain ⟨rfl, -⟩ := List.cons.inj hmore
      rw [Progress.feedAll_append, hbefore] at hts
      simp only [Except.bind, Progress.feedAll, hu] at hts
      cases hts

end Source

/-! ## Lines one behind the other -/

namespace C

/-- Lines that are there already stay below those that are added. -/
theorem Layout.foldl_put_behind (items : List Item) (l : Layout) (older : List Line) :
    items.foldl put { l with lines := l.lines ++ older } =
      { items.foldl put l with lines := (items.foldl put l).lines ++ older } := by
  induction items generalizing l with
  | nil => rfl
  | cons item items ih =>
    have hput : put { l with lines := l.lines ++ older } item =
        { l.put item with lines := (l.put item).lines ++ older } := by
      cases item <;> rfl
    rw [List.foldl_cons, List.foldl_cons, hput, ih]

theorem nonempty_append (f : Format) (lines lines' : List Line) :
    nonempty f (lines ++ lines') = nonempty f lines ++ nonempty f lines' := by
  simp [nonempty]

theorem nonempty_bare (f : Format) (d : Nat) : nonempty f [⟨d, [], .bare⟩] = [] := by
  cases f <;> rfl

/-- What lines are written as in the compact format. -/
def compactText (lines : List Line) : String := String.join ((nonempty .compact lines).map (·.2))

end C

/-- The lines of statements that `k` loops come before. -/
def Statement.linesAll (k : Nat) (ss : List Statement) : List C.Line :=
  (C.Layout.ofItems (C.Statement.itemsAll (Statement.lowerAll k ss))).finish

/-- Statements leave nothing behind that the next ones could depend on, but for the number
of their loops. -/
theorem Statement.nonempty_linesAll_append (f : Format) (k : Nat) {ss : List Statement}
    (h : ∀ t ∈ Statement.tokensAll ss, t.Legible) (rest : List Statement) :
    nonempty f (Statement.linesAll k (ss ++ rest)) = nonempty f (Statement.linesAll k ss) ++
      nonempty f (Statement.linesAll (k + Statement.loopsAll ss) rest) := by
  obtain ⟨lines, hfold, -⟩ := Statement.laysAll ss k h {} rfl
  have hrest := Layout.foldl_put_behind
    (C.Statement.itemsAll (Statement.lowerAll (k + Statement.loopsAll ss) rest)) {} lines.reverse
  simp only [List.nil_append, List.append_nil] at hfold hrest
  simp only [Statement.linesAll, Layout.ofItems, Statement.lowerAll_append,
    C.Statement.itemsAll_append, List.foldl_append, hfold, hrest]
  simp [Layout.finish, Layout.flush, nonempty_append, nonempty_bare]

namespace Source

/-- The C text of a source: its declarations, the lines of its statements in the pretty
format and their text in the compact one. -/
structure Emits (s : Source) (xs : List String) (lines : List (List Char)) (text : String) :
    Prop where
  pretty : ∃ out, s.compile .pretty = .ok out ∧ out.toList =
    ("#include <stdio.h>".toList :: [] :: "int main(void) \x7b".toList ::
      (xs.map (fun x => (indentation 1 ++ declaration x).toList) ++
        ((if xs ≠ [] ∧ lines ≠ [] then [[]] else []) ++ lines) ++ [['\x7d']])).flatMap (· ++ ['\n'])
  compact : s.compile .compact = .ok
    ("#include <stdio.h>\nint main(void)\x7b" ++ String.join (xs.map declaration) ++ text ++
      "\x7d\n")

theorem emits_of_parse {s : Source} {p : Program} (h : s.parse = .ok p) :
    s.Emits p.declarations (prettyLines p.lines) (compactText p.lines) where
  pretty := by
    refine ⟨p.toC .pretty, by rw [compile, h], ?_⟩
    rw [Program.toC, toList_render_pretty]
    rfl
  compact := by
    rw [compile, h]
    rfl

/-- What is read from the first text is the beginning of what is read from the whole. -/
theorem parse_continued {s q : Source} {p p' : Program} {t : Located Token}
    (h : s.parse = .ok p) (ht : q.significant.head? = some t) (helse : t.val ≠ .keyword .else_)
    (h' : (s.continued q).parse = .ok p') : ∃ names later,
      p'.declarations = p.declarations ++ names ∧ p'.statements = p.statements ++ later := by
  obtain ⟨r, hr, hready, -, hframes, rfl⟩ := feedAll_of_parse h
  obtain ⟨r', -, -, hwhole, hframes', rfl⟩ := feedAll_of_parse h'
  obtain ⟨us, hq⟩ := List.head?_eq_some_iff.mp ht
  have htn : t.val ≠ .newline := ne_newline_of_mem_significant (s := q) (by simp [hq])
  have hrest : r.settle.feedAll (q.significant.map (·.down s.ending.line)) = .ok r'.settle := by
    rw [s.significant_continued q, Progress.feedAll_append, hr] at hwhole
    rw [hq, List.map_cons] at hwhole ⊢
    rw [← Progress.feedAll_settle hready (t := t.down s.ending.line) htn helse]
    exact hwhole
  have hgrows := Progress.feedAll_grows hrest
  obtain ⟨names, hnames⟩ := hgrows.names
  have hstatements := hgrows.statements
  rw [Progress.outermost_of_frames_nil hframes, Progress.outermost_of_frames_nil hframes']
    at hstatements
  obtain ⟨later, hlater⟩ := hstatements
  refine ⟨names.reverse, later.reverse, ?_, ?_⟩
  · simp only [Progress.program, Scope.names, ← hnames, List.reverse_append]
  · simp only [Progress.program, ← hlater, List.reverse_append]

/-- A text that stands behind an accepted one, and does not begin with `else`, changes
nothing of what is read from that one. If the whole is accepted, its statements and names
are those of the first text and then those of the second, and so is its C text: what the
second adds is written as if it stood alone, with its loops numbered on. If the whole is
refused, then at a token of the second text. -/
theorem continued_exact {s q : Source} {p : Program} {t : Located Token} (h : s.parse = .ok p)
    (ht : q.significant.head? = some t) (helse : t.val ≠ .keyword .else_) :
    s.Emits p.declarations (prettyLines p.lines) (compactText p.lines) ∧
    (∀ p', (s.continued q).parse = .ok p' → ∃ names later,
      p'.declarations = p.declarations ++ names ∧ p'.statements = p.statements ++ later ∧
      (Statement.tokensAll later).map Token.reading = q.words.map Token.reading ∧
      (s.continued q).Emits p'.declarations
        (prettyLines p.lines ++
          prettyLines (Statement.linesAll (Statement.loopsAll p.statements) later))
        (compactText p.lines ++
          compactText (Statement.linesAll (Statement.loopsAll p.statements) later))) ∧
    ∀ e, (s.continued q).parse = .error e → (t.span.down s.ending.line).first ≤ e.span.first := by
  refine ⟨emits_of_parse h, ?_, ?_⟩
  · intro p' h'
    obtain ⟨names, later, hnames, hlater⟩ := parse_continued h ht helse h'
    have hemits := emits_of_parse h'
    have hnonempty (f : Format) : nonempty f p'.lines = nonempty f p.lines ++
        nonempty f (Statement.linesAll (Statement.loopsAll p.statements) later) := by
      have happend := Statement.nonempty_linesAll_append f 0 (parse_legible h) later
      rw [← hlater, Nat.zero_add] at happend
      exact happend
    refine ⟨names, later, hnames, hlater, ?_, ?_⟩
    · have hwords := (parse_spelled h').1
      rw [hlater, Statement.tokensAll_append, List.map_append, (parse_spelled h).1,
        words_continued, List.map_append] at hwords
      exact List.append_cancel_left hwords
    · simpa [prettyLines, compactText, hnonempty] using hemits
  · intro e he
    obtain ⟨r, hr, -⟩ := feedAll_of_parse h
    obtain ⟨before, u, after, r', hsplit, hun, -, hbefore, hu⟩ := parse_eq_error he
    obtain ⟨us, hq⟩ := List.head?_eq_some_iff.mp ht
    have hsig := s.significant_continued q
    have hpairwise := (s.continued q).significant_pairwise
    rw [hq, List.map_cons] at hsig
    have hmem : u ∈ t.down s.ending.line :: us.map (·.down s.ending.line) :=
      mem_of_feedAll_error hr (hsig.symm.trans hsplit) hbefore (by rwa [r'.feed_of_ne_newline hun])
    rw [hsig, List.pairwise_append] at hpairwise
    rw [r'.step_faultAt u e hu]
    rcases List.mem_cons.mp hmem with rfl | hlater
    · exact Position.le_refl _
    · exact List.rel_of_pairwise_cons hpairwise.2.1 hlater

/-- It ends with an `if` that an `else` could follow, and with a comment. -/
def openIf : Source where
  name := "counted"
  text := "let n = 2; dotimes(n) \x7b n = n - 1; \x7d\nif (n < 1) \x7b print(\"done\"); \x7d # so far"

/-- It uses a name that is declared before it. -/
def moreLoops : Source where
  name := "more"
  text := "\n  dotimes(n) \x7b let m; dotimes(3) \x7b read(m); \x7d \x7d"

theorem continued_exact_moreLoops :
    ∃ p t, openIf.parse = .ok p ∧ moreLoops.significant.head? = some t ∧
      t.val ≠ .keyword .else_ ∧ (openIf.continued moreLoops).parse.isOk = true ∧
      openIf.Emits p.declarations (prettyLines p.lines) (compactText p.lines) ∧
      (∀ p', (openIf.continued moreLoops).parse = .ok p' → ∃ names later,
        p'.declarations = p.declarations ++ names ∧ p'.statements = p.statements ++ later ∧
        (Statement.tokensAll later).map Token.reading = moreLoops.words.map Token.reading ∧
        (openIf.continued moreLoops).Emits p'.declarations
          (prettyLines p.lines ++
            prettyLines (Statement.linesAll (Statement.loopsAll p.statements) later))
          (compactText p.lines ++
            compactText (Statement.linesAll (Statement.loopsAll p.statements) later))) ∧
      ∀ e, (openIf.continued moreLoops).parse = .error e →
        (t.span.down openIf.ending.line).first ≤ e.span.first := by
  have hok : openIf.parse.isOk = true := by decide +kernel
  have hwhole : (openIf.continued moreLoops).parse.isOk = true := by decide +kernel
  have hhead : moreLoops.significant.head? =
      some ⟨.keyword .dotimes, ⟨2, 3⟩, ⟨2, 9⟩⟩ := by decide +kernel
  cases hp : openIf.parse with
  | ok p => exact ⟨p, _, rfl, hhead, by simp, hwhole, continued_exact hp hhead (by simp)⟩
  | error e =>
    rw [hp] at hok
    cases hok

end Source

end BareBones
