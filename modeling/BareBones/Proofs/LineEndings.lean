import BareBones.Proofs.Underlining

/-!
Lines that end with a carriage return and a newline. The carriage return is a blank or part
of a comment, and it moves no token, because the newline behind it begins a new line
anyway. There is one exception: a text that its line does not close takes the carriage
return for its own. So such endings change neither the result nor the report, unless
reading stops at a text of this kind on a line that has an ending
(`Source.shown_crlf_iff`).
-/

namespace BareBones

/-- The text with a carriage return before each newline. -/
def crlf (cs : List Char) : List Char := cs.flatMap fun c => if c = '\n' then ['\r', '\n'] else [c]

theorem crlf_cons (c : Char) (cs : List Char) :
    crlf (c :: cs) = (if c = '\n' then ['\r', '\n'] else [c]) ++ crlf cs := rfl

theorem crlf_append (cs ds : List Char) : crlf (cs ++ ds) = crlf cs ++ crlf ds :=
  List.flatMap_append

theorem crlf_eq_self {cs : List Char} (h : '\n' ∉ cs) : crlf cs = cs := by
  induction cs with
  | nil => rfl
  | cons c cs ih =>
    rw [List.mem_cons, not_or] at h
    rw [crlf_cons, if_neg (Ne.symm h.1), ih h.2]
    rfl

theorem IsGap.newline_notMem {gap : List Char} {t : Token} (h : IsGap gap t) : '\n' ∉ gap := by
  obtain ⟨blanks, comment, rfl, hblanks, hcomment⟩ := h
  have hb : '\n' ∉ blanks := fun hmem => absurd (hblanks _ hmem) (by decide)
  rcases hcomment with rfl | ⟨body, rfl, hbody, -⟩
  · simpa using hb
  · simp [hb, hbody]

/-- A carriage return may stand at the end of any layout. -/
theorem IsGap.push_return {gap : List Char} {t : Token} (h : IsGap gap t) :
    IsGap (gap ++ ['\r']) t := by
  obtain ⟨blanks, comment, rfl, hblanks, rfl | ⟨body, rfl, hbody, ht⟩⟩ := h
  · refine ⟨blanks ++ ['\r'], [], by simp, ?_, Or.inl rfl⟩
    simp only [List.mem_append, List.mem_singleton]
    rintro c (hc | rfl)
    · exact hblanks c hc
    · decide
  · exact ⟨blanks, '#' :: (body ++ ['\r']), by simp, hblanks,
      Or.inr ⟨body ++ ['\r'], rfl, by simp [hbody], ht⟩⟩

/-- Before any other token than a newline and `eof` there are only blanks. -/
theorem IsGap.of_ne {gap : List Char} {t : Token} (h : IsGap gap t) (hn : t ≠ .newline)
    (he : t ≠ .eof) (u : Token) : IsGap gap u := by
  obtain ⟨blanks, comment, rfl, hblanks, rfl | ⟨body, rfl, -, ht⟩⟩ := h
  · exact ⟨blanks, [], rfl, hblanks, Or.inl rfl⟩
  · exact absurd ht (not_or.mpr ⟨hn, he⟩)

/-! ## Tokens -/

/-- A text without its closing quote goes on with a carriage return. -/
theorem Unclosed.push_return {cs : List Char} (h : Unclosed cs) : Unclosed (cs ++ ['\r']) := by
  obtain ⟨inside, hi, rfl | rfl⟩ := h
  · exact ⟨_, hi.append (.plain (by decide) (by decide) (by decide) .nil), Or.inl rfl⟩
  · refine ⟨_, hi.append (.escape (c := '\r') (by decide) .nil), Or.inl ?_⟩
    simp

namespace Token

/-- What such a text becomes when it takes a carriage return. -/
def pushReturn : Token → Token
  | unknown u => unknown (u.push '\r')
  | t => t

theorem raw_pushReturn {t : Token} (h : t.IsOpenText) : t.pushReturn.raw = t.raw ++ ['\r'] := by
  cases t with
  | unknown u => simp [pushReturn, raw]
  | _ => exact h.elim

theorem IsOpenText.ne {t : Token} (h : t.IsOpenText) : t ≠ .newline ∧ t ≠ .eof := by
  cases t with
  | unknown u => simp
  | _ => exact h.elim

theorem IsOpenText.pushReturn {t : Token} (h : t.IsOpenText) : t.pushReturn.IsOpenText := by
  cases t with
  | unknown u =>
    obtain ⟨cs, hu⟩ := List.head?_eq_some_iff.mp h
    simp [Token.pushReturn, IsOpenText, hu]
  | _ => exact h.elim

theorem Whole.pushReturn {t : Token} (h : t.Whole) (ht : t.IsOpenText) : t.pushReturn.Whole := by
  cases t with
  | unknown u =>
    rcases h with ⟨c, hu, hc⟩ | ⟨inside, hu, hi⟩
    · -- a quote on its own is no stray character
      obtain rfl : c = '"' := by simpa [IsOpenText, hu] using ht
      exact absurd hc (by decide)
    · exact Or.inr ⟨inside ++ ['\r'], by simp [hu], hi.push_return⟩
  | _ => exact ht.elim

end Token

/-- The token as it stands in the text with the other line endings, of which `n` is the last
line. -/
def Located.returned (n : Nat) (t : Located Token) : Located Token :=
  if t.val.IsOpenText ∧ t.span.last.line < n then
    ⟨t.val.pushReturn, t.span.first, t.span.first.afterAll t.val.raw⟩
  else t

/-! ## Segments -/

theorem Position.after_return_newline (p : Position) : (p.after '\r').after '\n' = p.after '\n' :=
  rfl

namespace Segment

/-- The segments of the text with the other line endings. A text that its line does not close
takes the carriage return; otherwise it stands before the newline. -/
def crlf : List Segment → List Segment
  | [] => []
  | g :: gs =>
    if g.token = .newline then ⟨g.gap ++ ['\r'], .newline⟩ :: crlf gs
    else if g.token.IsOpenText ∧ text gs ≠ [] then
      ⟨g.gap, g.token.pushReturn⟩ :: ⟨[], .newline⟩ :: crlf gs.tail
    else g :: crlf gs
termination_by gs => gs.length
decreasing_by all_goals simp only [List.length_cons, List.length_tail]; omega

/-- The tokens other than newlines, each at its place. -/
def significant (here : Position) (gs : List Segment) : List (Located Token) :=
  (locateAll here gs).filter (·.val ≠ .newline)

theorem significant_newline (here : Position) (gap : List Char) (gs : List Segment) :
    significant here (⟨gap, .newline⟩ :: gs) =
      significant ((here.afterAll gap).after '\n') gs := by
  simp [significant, locateAll, locate, chars, Token.raw]

theorem significant_cons (here : Position) {g : Segment} (h : g.token ≠ .newline)
    (gs : List Segment) :
    significant here (g :: gs) = g.locate here :: significant (here.afterAll g.chars) gs := by
  simp [significant, locateAll, h]

end Segment

namespace Cut

/-- What ends before a text ends before it with the other line endings too, unless it takes
the carriage return. -/
theorem endsBefore_crlf {t : Token} {cs : List Char} (h : ∀ c ∈ cs.head?, t.EndsBefore c)
    (ht : t.IsOpenText → cs = []) : ∀ c ∈ (crlf cs).head?, t.EndsBefore c := by
  cases cs with
  | nil => simp [crlf]
  | cons c cs =>
    have hclosed : ¬ t.IsOpenText := fun hopen => List.cons_ne_nil _ _ (ht hopen)
    rw [crlf_cons]
    by_cases hc : c = '\n'
    · rw [if_pos hc]
      exact (Filler.blank (c := '\r') (by decide) .nil).endsBefore hclosed
    · rw [if_neg hc]
      exact h

section

variable {g : Segment} {gs : List Segment}

theorem crlf_chars (h : Cut (g :: gs)) (hn : g.token ≠ .newline) :
    BareBones.crlf (Segment.text (g :: gs)) =
      g.gap ++ (g.token.raw ++ BareBones.crlf (Segment.text gs)) := by
  rw [Segment.text_cons, crlf_append, crlf_append, crlf_eq_self h.isGap.newline_notMem,
    crlf_eq_self (h.whole.newline_notMem_raw hn)]

/-- A newline with nothing before it is a token of its own. -/
theorem exists_of_head_newline (h : Cut gs) (hhead : (Segment.text gs).head? = some '\n') :
    ∃ gs', gs = ⟨[], .newline⟩ :: gs' ∧ Cut gs' := by
  cases gs with
  | nil => cases h
  | cons g gs =>
    obtain ⟨gap, t⟩ := g
    have hgap : gap = [] := by
      cases gap with
      | nil => rfl
      | cons c cs =>
        have hc : c = '\n' := by simpa using hhead
        exact absurd h.isGap.newline_notMem (by simp [hc])
    subst hgap
    cases h with
    | last => simp [Token.raw] at hhead
    | cons heof _ hw _ hgs =>
      obtain ⟨c, cs, hraw, -⟩ := hw.raw_eq_cons heof
      have hc : c = '\n' := by simpa [hraw] using hhead
      have ht : t = .newline := by
        refine Classical.byContradiction fun ht => ?_
        exact hw.newline_notMem_raw ht (by simp [hraw, hc])
      exact ⟨gs, by rw [ht], hgs⟩

/-- Only the end of the line may follow a text that is not closed. -/
theorem exists_newline (h : Cut (g :: gs)) (ht : g.token.IsOpenText)
    (hne : Segment.text gs ≠ []) : ∃ gs', gs = ⟨[], .newline⟩ :: gs' ∧ Cut gs' := by
  obtain ⟨c, cs, hcs⟩ := List.exists_cons_of_ne_nil hne
  obtain ⟨-, -, hends, hcut⟩ := h.uncons (by rintro rfl; exact hne rfl)
  refine hcut.exists_of_head_newline ?_
  obtain ⟨gap, t⟩ := g
  have hc : t.EndsBefore c := hends c (by rw [hcs]; rfl)
  cases t with
  | unknown u => rw [hcs, List.head?_cons, hc ht]
  | _ => exact ht.elim

end

/-- The text with the other line endings is cut into these segments. -/
theorem crlf {gs : List Segment} (h : Cut gs) :
    Cut (Segment.crlf gs) ∧ Segment.text (Segment.crlf gs) = BareBones.crlf (Segment.text gs) := by
  fun_induction Segment.crlf gs with
  | case1 => cases h
  | case2 g gs hn ih =>
    obtain ⟨gap, t⟩ := g
    obtain rfl : t = .newline := hn
    cases h with
    | cons hne hg hw hr hgs =>
      obtain ⟨hcut, htext⟩ := ih hgs
      refine ⟨.cons hne hg.push_return hw (fun _ _ => trivial) hcut, ?_⟩
      rw [Segment.text_cons, Segment.text_cons, crlf_append, crlf_eq_self hg.newline_notMem, htext]
      simp [Token.raw, crlf_cons]
  | case3 g gs hn hopen ih =>
    obtain ⟨gs', rfl, hgs'⟩ := h.exists_newline hopen.1 hopen.2
    rw [List.tail_cons] at ih ⊢
    obtain ⟨hcut, htext⟩ := ih hgs'
    have hnewline : Cut (⟨[], .newline⟩ :: Segment.crlf gs') :=
      .cons (by simp) (.nil _) trivial (fun _ _ => trivial) hcut
    refine ⟨.cons hopen.1.pushReturn.ne.2 (h.isGap.of_ne hn hopen.1.ne.2 _)
      (h.whole.pushReturn hopen.1) ?_ hnewline, ?_⟩
    · intro c hc
      obtain rfl : c = '\n' := by simpa [Token.raw, eq_comm] using hc
      exact Token.endsBefore_newline _
    · rw [crlf_chars h hn, Segment.text_cons, Segment.text_cons, Segment.text_cons,
        Token.raw_pushReturn hopen.1, htext, crlf_append, crlf_append]
      simp [Token.raw, BareBones.crlf]
  | case4 g gs hn hclosed ih =>
    cases h with
    | last hg =>
      refine ⟨by simpa [Segment.crlf] using Cut.last hg, ?_⟩
      rw [crlf_chars (.last hg) hn]
      simp [Segment.crlf, BareBones.crlf]
    | cons hne hg hw hr hgs =>
      obtain ⟨hcut, htext⟩ := ih hgs
      refine ⟨.cons hne hg hw ?_ hcut, ?_⟩
      · rw [htext]
        exact endsBefore_crlf hr fun hopen => Classical.byContradiction fun hne => hclosed ⟨hopen, hne⟩
      · rw [crlf_chars (.cons hne hg hw hr hgs) hn, Segment.text_cons, htext]

/-- A text that its line does not close is in the last line exactly if nothing follows it. -/
theorem line_last_lt_iff {g : Segment} {gs : List Segment} (h : Cut (g :: gs)) (here : Position)
    (ht : g.token.IsOpenText) :
    (g.locate here).span.last.line < (here.afterAll (Segment.text (g :: gs))).line ↔
      Segment.text gs ≠ [] := by
  have hraw := h.whole.newline_notMem_raw ht.ne.1
  have hlast : (g.locate here).span.last.line = (here.afterAll g.gap).line :=
    Position.line_afterAll _ fun hmem => hraw (List.dropLast_subset _ hmem)
  have hbehind : ((here.afterAll g.gap).afterAll g.token.raw).line = (here.afterAll g.gap).line :=
    Position.line_afterAll _ hraw
  rw [hlast, ← hbehind, Segment.text_cons, Position.afterAll_append, Position.afterAll_append]
  constructor
  · intro hlt hnil
    rw [hnil, Position.afterAll_nil] at hlt
    exact Nat.lt_irrefl _ hlt
  · intro hne
    obtain ⟨gs', rfl, -⟩ := h.exists_newline ht hne
    have hle := Position.le_afterAll
      (((here.afterAll g.gap).afterAll g.token.raw).after '\n') (Segment.text gs')
    rw [Position.le_iff, Position.after_newline] at hle
    show _ < (Position.afterAll (Position.after _ '\n') (Segment.text gs')).line
    rw [Position.after_newline]
    simp only at hle
    omega

theorem returned_locate {g : Segment} {gs : List Segment} (h : Cut (g :: gs)) (here : Position) :
    (g.locate here).returned (here.afterAll (Segment.text (g :: gs))).line =
      if g.token.IsOpenText ∧ Segment.text gs ≠ [] then
        Segment.locate here ⟨g.gap, g.token.pushReturn⟩
      else g.locate here := by
  unfold Located.returned
  by_cases ht : g.token.IsOpenText
  · have hiff := h.line_last_lt_iff here ht
    simp only [Segment.locate_val, hiff]
    congr 1
    simp only [Segment.locate, Token.raw_pushReturn ht, List.dropLast_concat]
  · rw [if_neg (fun hopen => ht hopen.1), if_neg (fun hopen => ht hopen.1)]

/-- With the other line endings every token stands where it stood. -/
theorem significant_crlf {gs : List Segment} (h : Cut gs) (here : Position) :
    Segment.significant here (Segment.crlf gs) = (Segment.significant here gs).map
      (·.returned (here.afterAll (Segment.text gs)).line) := by
  fun_induction Segment.crlf gs generalizing here with
  | case1 => cases h
  | case2 g gs hn ih =>
    obtain ⟨gap, t⟩ := g
    obtain rfl : t = .newline := hn
    cases h with
    | cons hne hg hw hr hgs =>
      rw [Segment.significant_newline, Segment.significant_newline, ih hgs]
      simp [Token.raw, Position.after_return_newline]
  | case3 g gs hn hopen ih =>
    have hlocate := h.returned_locate here
    rw [if_pos hopen] at hlocate
    obtain ⟨gs', rfl, hgs'⟩ := h.exists_newline hopen.1 hopen.2
    rw [List.tail_cons] at ih ⊢
    have hbelow : (here.afterAll (Segment.chars ⟨g.gap, g.token.pushReturn⟩)).after '\n' =
        (here.afterAll g.chars).after '\n' := by
      simp only [Segment.chars, Token.raw_pushReturn hopen.1, Position.afterAll_append,
        Position.afterAll_cons, Position.afterAll_nil, Position.after_return_newline]
    have hending : here.afterAll (Segment.text (g :: ⟨[], .newline⟩ :: gs')) =
        ((here.afterAll g.chars).after '\n').afterAll (Segment.text gs') := by
      rw [Segment.text_cons, ← List.append_assoc, Position.afterAll_append]
      rfl
    rw [Segment.significant_cons here hn, List.map_cons, hlocate,
      Segment.significant_cons here hopen.1.pushReturn.ne.1, Segment.significant_newline,
      Segment.significant_newline, Position.afterAll_nil, Position.afterAll_nil, hbelow, hending,
      ih hgs']
  | case4 g gs hn hclosed ih =>
    have hlocate := h.returned_locate here
    rw [if_neg hclosed] at hlocate
    rw [Segment.significant_cons here hn, Segment.significant_cons here hn, List.map_cons, hlocate]
    cases h with
    | last => simp [Segment.crlf, Segment.significant, Segment.locateAll]
    | cons hne hg hw hr hgs =>
      rw [ih hgs]
      simp [Segment.chars]

end Cut

/-! ## Sources -/

namespace Progress

/-- Nothing that is no token has been read. -/
theorem ne_unknown_of_feedAll {p q : Progress} {ts : List (Located Token)}
    (h : p.feedAll ts = .ok q) : ∀ t ∈ ts, ∀ u, t.val ≠ .unknown u := by
  induction ts generalizing p with
  | nil => simp
  | cons t ts ih =>
    rw [feedAll] at h
    cases hp : p.feed t with
    | error e =>
      rw [hp] at h
      cases h
    | ok next =>
      rw [hp] at h
      refine List.forall_mem_cons.mpr ⟨?_, ih h⟩
      obtain ⟨val, span⟩ := t
      rintro u rfl
      rw [p.feed_of_ne_newline (by simp), p.step_unknown] at hp
      cases hp

end Progress

theorem Located.returned_of_not_isOpenText {t : Located Token} (h : ¬ t.val.IsOpenText) (n : Nat) :
    t.returned n = t := by
  rw [returned, if_neg fun hopen => h hopen.1]

theorem map_returned_of_feedAll {p q : Progress} {ts : List (Located Token)}
    (h : p.feedAll ts = .ok q) (n : Nat) : ts.map (·.returned n) = ts := by
  refine (List.map_congr_left fun t ht => ?_).trans (List.map_id ts)
  refine Located.returned_of_not_isOpenText ?_ n
  intro hopen
  have hne := Progress.ne_unknown_of_feedAll h t ht
  cases hv : t.val with
  | unknown u => exact hne u hv
  | _ =>
    rw [hv] at hopen
    exact hopen

namespace Source

/-- The source with a carriage return before each newline. -/
def crlf (s : Source) : Source := ⟨s.name, String.ofList (BareBones.crlf s.text.toList)⟩

theorem segments_crlf (s : Source) : s.crlf.segments = Segment.crlf s.segments := by
  obtain ⟨hcut, htext⟩ := s.segments_cut.crlf
  refine (segments_eq_of_cut hcut ?_).symm
  rw [htext, s.text_segments, crlf, String.toList_ofList]

theorem significant_crlf (s : Source) :
    s.crlf.significant = s.significant.map (·.returned s.ending.line) := by
  have h := s.segments_cut.significant_crlf .start
  rw [← s.segments_crlf, s.text_segments] at h
  rw [significant, significant, tokens_eq, tokens_eq]
  exact h

/-! ### Lines -/

theorem dropLines_crlf (n : Nat) (cs : List Char) :
    dropLines n (BareBones.crlf cs) = BareBones.crlf (dropLines n cs) := by
  induction cs generalizing n with
  | nil => cases n <;> rfl
  | cons c cs ih =>
    cases n with
    | zero => simp only [dropLines]
    | succ n =>
      rw [crlf_cons, dropLines]
      by_cases hc : c = '\n'
      · rw [if_pos hc, if_pos hc, ← ih]
        simp [dropLines]
      · rw [if_neg hc, if_neg hc, ← ih]
        simp [dropLines, hc]

theorem firstLine_crlf {cs : List Char} (h : '\r' ∉ cs) :
    firstLine (BareBones.crlf cs) = firstLine cs := by
  obtain ⟨line, below, rfl, hline, hbelow⟩ := exists_firstLine cs
  have hr : '\r' ∉ line := fun hmem => h (List.mem_append_left _ hmem)
  rw [firstLine_append hline hr hbelow, crlf_append, crlf_eq_self hline]
  cases below with
  | nil => exact firstLine_append hline hr (by simp [BareBones.crlf])
  | cons c below =>
    obtain rfl := hbelow c rfl
    have htake : (line ++ BareBones.crlf ('\n' :: below)).takeWhile (· ≠ '\n') =
        line ++ ['\r'] := by
      rw [crlf_cons, if_pos rfl, List.cons_append, List.append_cons]
      refine (takeWhile_append_of_head ?_ (by simp)).1
      intro c hc
      rcases List.mem_append.mp hc with hc | hc
      · simpa using ne_of_mem_of_not_mem hc hline
      · simp_all
    simp only [firstLine, htake]
    rw [if_pos (by simp [crlf_cons]), List.dropLast_concat]

theorem dropLines_suffix (n : Nat) (cs : List Char) : dropLines n cs <:+ cs := by
  induction cs generalizing n with
  | nil => cases n <;> simp [dropLines]
  | cons c cs ih =>
    cases n with
    | zero => exact List.suffix_rfl
    | succ n =>
      rw [dropLines]
      split <;> exact (ih _).trans (List.suffix_cons _ _)

/-- The lines without their endings are the same. -/
theorem line_crlf {s : Source} (h : '\r' ∉ s.text.toList) (n : Nat) : s.crlf.line n = s.line n := by
  cases n with
  | zero => rfl
  | succ n =>
    have hrest : '\r' ∉ dropLines n s.text.toList :=
      fun hmem => h ((dropLines_suffix n _).subset hmem)
    rw [line, line, crlf, String.toList_ofList, dropLines_crlf, firstLine_crlf hrest]

theorem render_report_crlf {s : Source} (h : '\r' ∉ s.text.toList) (e : Located ParseError) :
    (s.crlf.report e).render = (s.report e).render := by
  have hrows : Complaint.rows ⟨e.val.message, s.crlf, e.span⟩ =
      Complaint.rows ⟨e.val.message, s, e.span⟩ := by
    have hquoted : Complaint.quoted ⟨e.val.message, s.crlf, e.span⟩ =
        Complaint.quoted ⟨e.val.message, s, e.span⟩ := by
      funext n
      show _ ++ _ ++ s.crlf.line n = _ ++ _ ++ s.line n
      rw [line_crlf h]
      rfl
    rw [Complaint.rows, Complaint.rows, hquoted]
    rfl
  simp only [report, Report.render, Report.isEmpty, List.flatMap_cons, List.flatMap_nil, hrows,
    List.isEmpty_cons, List.length_cons, List.length_nil]

/-! ### What reading comes to -/

theorem parse_crlf_of_ok {s : Source} {p : Program} (h : s.parse = .ok p) :
    s.crlf.parse = .ok p := by
  rw [parse_significant, BareBones.parse] at h ⊢
  cases hq : Progress.start.feedAll s.significant with
  | error e =>
    rw [hq] at h
    cases h
  | ok q => rwa [significant_crlf, map_returned_of_feedAll hq]

/-- Reading stops at the same token. -/
theorem StopsAt.crlf {s : Source} {t : Located Token} {e d : Located ParseError}
    (h : s.StopsAt t e)
    (ht : ∀ p : Progress, p.step t = .error e → p.step (t.returned s.ending.line) = .error d) :
    s.crlf.StopsAt (t.returned s.ending.line) d := by
  obtain ⟨before, after, p, hsplit, hp, hstep⟩ := h
  refine ⟨before, after.map (·.returned s.ending.line), p, ?_, hp, ht p hstep⟩
  rw [significant_crlf, hsplit, List.map_append, List.map_cons, map_returned_of_feedAll hp]

/-- Reading stops at a text that its line does not close, and that line has an ending. -/
def CutShort (s : Source) : Prop :=
  ∃ t e, s.StopsAt t e ∧ t.val.IsOpenText ∧ t.span.last.line < s.ending.line

/-- The same fault is found, if it is no text that takes the carriage return. -/
theorem parse_crlf_of_error {s : Source} {e : Located ParseError} (h : s.parse = .error e)
    (hs : ¬ s.CutShort) : s.crlf.parse = .error e := by
  obtain ⟨t, hstops⟩ := exists_stopsAt h
  have hreturned : t.returned s.ending.line = t := by
    rw [Located.returned, if_neg fun hopen => hs ⟨t, e, hstops, hopen⟩]
  have hstops' := hstops.crlf (d := e) fun p hp => by rwa [hreturned]
  exact hstops'.parse_eq

/-- A text that takes it is reported with it. -/
theorem StopsAt.parse_crlf {s : Source} {t : Located Token} {e : Located ParseError}
    (h : s.StopsAt t e) (ht : t.val.IsOpenText) (hline : t.span.last.line < s.ending.line) :
    ∃ u, t.val = .unknown u ∧ s.parse = .error ⟨.unrecognized u, t.span⟩ ∧
      s.crlf.parse = .error
        ⟨.unrecognized (u.push '\r'), t.span.first, t.span.first.afterAll t.val.raw⟩ := by
  have hreturned : t.returned s.ending.line =
      ⟨t.val.pushReturn, t.span.first, t.span.first.afterAll t.val.raw⟩ := by
    rw [Located.returned, if_pos ⟨ht, hline⟩]
  obtain ⟨val, span⟩ := t
  cases val with
  | unknown u =>
    have he : e = ⟨.unrecognized u, span⟩ := by
      obtain ⟨before, after, p, -, -, hstep⟩ := h
      rw [p.step_unknown] at hstep
      cases hstep
      rfl
    refine ⟨u, rfl, he ▸ h.parse_eq, (h.crlf fun p _ => ?_).parse_eq⟩
    rw [hreturned]
    exact p.step_unknown _ _
  | _ => exact ht.elim

end Source

theorem ParseError.message_push_ne (u : String) (c : Char) :
    (unrecognized (u.push c)).message ≠ (unrecognized u).message := by
  intro h
  change "Unrecognized input `" ++ u.push c ++ "`" = "Unrecognized input `" ++ u ++ "`" at h
  rw [String.append_left_inj, String.append_right_inj] at h
  have hlength := congrArg String.length h
  rw [String.length_push] at hlength
  omega

namespace Source

/-- What is seen of a translation: the C text, or the heading of the report, its messages and
the whole of it. -/
def shown (s : Source) (f : C.Format) : String ⊕ (String × List String × String) :=
  match s.compile f with
  | .ok c => .inl c
  | .error r => .inr (r.label, r.messages, r.render)

/-- Carriage returns before the newlines of a text that has none change neither the C text nor
the report, exactly if reading does not stop at a text that the end of a line cuts short. If
it does, the carriage return is reported as the last character of that text. -/
theorem shown_crlf_iff {s : Source} (h : '\r' ∉ s.text.toList) (f : C.Format) :
    (s.crlf.shown f = s.shown f ↔ ¬ s.CutShort) ∧
    ∀ t e, s.StopsAt t e → t.val.IsOpenText → t.span.last.line < s.ending.line →
      ∃ u, t.val = .unknown u ∧ s.compile f = .error (s.report ⟨.unrecognized u, t.span⟩) ∧
        s.crlf.compile f = .error (s.crlf.report
          ⟨.unrecognized (u.push '\r'), t.span.first, t.span.first.afterAll t.val.raw⟩) := by
  refine ⟨⟨?_, ?_⟩, ?_⟩
  · rintro hsame ⟨t, e, hstops, hopen, hline⟩
    obtain ⟨u, -, hparse, hparse'⟩ := hstops.parse_crlf hopen hline
    simp only [shown, compile, hparse, hparse', Sum.inr.injEq, Prod.mk.injEq] at hsame
    exact ParseError.message_push_ne u '\r' (List.cons.inj hsame.2.1).1
  · intro hs
    cases hp : s.parse with
    | ok p => simp only [shown, compile, hp, parse_crlf_of_ok hp]
    | error e =>
      simp only [shown, compile, hp, parse_crlf_of_error hp hs, render_report_crlf h]
      rfl
  · intro t e hstops hopen hline
    obtain ⟨u, hu, hparse, hparse'⟩ := hstops.parse_crlf hopen hline
    exact ⟨u, hu, by rw [compile, hparse], by rw [compile, hparse']⟩

/-- A fault behind a comment, a text with a quote in it and a line that is blank. -/
def lateFault : Source where
  name := "late"
  text := "let x = 1; # one\n\nprint(\"\\\"\",\n  x) x;\n"

theorem shown_crlf_lateFault :
    '\r' ∉ lateFault.text.toList ∧ (lateFault.compile .pretty).isOk = false ∧
      lateFault.crlf.shown .pretty = lateFault.shown .pretty := by
  have hclosed : ∀ t ∈ lateFault.significant, ¬ t.val.IsOpenText := by decide +kernel
  have hs : ¬ lateFault.CutShort := by
    rintro ⟨t, e, hstops, hopen, -⟩
    exact hclosed t hstops.mem hopen
  exact ⟨by decide, by decide +kernel, (shown_crlf_iff (by decide) .pretty).1.mpr hs⟩

/-- A text without its closing quote before the end of a line. -/
def tornText : Source where
  name := "torn"
  text := "print(\"abc\n"

/-- With the other line ending the message and the carets have one more character. -/
theorem tornText_crlf :
    '\r' ∉ tornText.text.toList ∧ tornText.crlf.shown .compact ≠ tornText.shown .compact ∧
      tornText.shown .compact = .inr ("Syntax error", ["Unrecognized input `\"abc`"],
        "Syntax error: Unrecognized input `\"abc`\n --> torn:[1:7-1:10]\n  |\n" ++
        "1 | print(\"abc\n  |       ^^^^\n\nTranslation failed with 1 error\n") ∧
      tornText.crlf.shown .compact = .inr ("Syntax error", ["Unrecognized input `\"abc\r`"],
        "Syntax error: Unrecognized input `\"abc\r`\n --> torn:[1:7-1:11]\n  |\n" ++
        "1 | print(\"abc\n  |       ^^^^^\n\nTranslation failed with 1 error\n") := by
  decide +kernel

end Source

end BareBones
