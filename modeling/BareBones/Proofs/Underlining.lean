import BareBones.Compile
import BareBones.Proofs.FirstFault
import BareBones.Proofs.Insertion
import BareBones.Proofs.Placement

/-!
What a report underlines. Positions are found by walking over the text and quoted lines
by cutting it at its newlines; both agree, because the position behind some whole lines
says how many they are (`Position.afterAll_wholeLines`) and that many lines are dropped to
find the next one (`Source.dropLines_wholeLines`). So the carets of a report stand below the
characters of the token at which reading stopped (`Source.report_underlines`).
-/

namespace BareBones

/-! ## The last line of a text -/

/-- Lines with their endings. -/
def WholeLines (cs : List Char) : Prop := cs = [] ∨ cs.getLast? = some '\n'

theorem WholeLines.tail {c : Char} {cs : List Char} (h : WholeLines (c :: cs)) :
    WholeLines cs ∧ (c ≠ '\n' → '\n' ∈ cs) := by
  have hlast : (c :: cs).getLast? = some '\n' := h.resolve_left (by simp)
  cases cs with
  | nil => exact ⟨Or.inl rfl, fun hc => absurd (by simpa using hlast) hc⟩
  | cons d cs =>
    rw [List.getLast?_cons_cons] at hlast
    exact ⟨Or.inr hlast, fun _ => List.mem_of_getLast? hlast⟩

theorem exists_lastLine (cs : List Char) :
    ∃ above left, cs = above ++ left ∧ WholeLines above ∧ '\n' ∉ left := by
  induction cs with
  | nil => exact ⟨[], [], rfl, Or.inl rfl, by simp⟩
  | cons c cs ih =>
    obtain ⟨above, left, rfl, habove, hleft⟩ := ih
    by_cases hn : above = [] ∧ c ≠ '\n'
    · obtain ⟨rfl, hc⟩ := hn
      exact ⟨[], c :: left, rfl, Or.inl rfl, by simp [Ne.symm hc, hleft]⟩
    · refine ⟨c :: above, left, rfl, Or.inr ?_, hleft⟩
      rcases habove with rfl | hlast
      · simpa using hn
      · rw [List.getLast?_cons, hlast]
        rfl

theorem exists_firstLine (cs : List Char) :
    ∃ right below, cs = right ++ below ∧ '\n' ∉ right ∧ ∀ c ∈ below.head?, c = '\n' := by
  refine ⟨cs.takeWhile (· ≠ '\n'), cs.dropWhile (· ≠ '\n'), by simp, ?_, ?_⟩
  · intro hmem
    simpa using List.all_eq_true.mp List.all_takeWhile _ hmem
  · intro c hc
    simpa using Munch.head?_dropWhile_eq_false cs c hc

namespace Position

theorem line_afterAll_eq (p : Position) (cs : List Char) :
    (p.afterAll cs).line = p.line + cs.count '\n' := by
  induction cs generalizing p with
  | nil => rfl
  | cons c cs ih =>
    rw [afterAll_cons, ih, List.count_cons]
    by_cases hc : c = '\n'
    · rw [hc, after_newline, beq_self_eq_true, if_pos rfl]
      show p.line + 1 + _ = _
      omega
    · rw [(p.after_of_ne_newline hc).1, if_neg (by simpa using hc)]
      omega

/-- Behind whole lines a new line begins. -/
theorem afterAll_wholeLines {cs : List Char} (h : WholeLines cs) :
    start.afterAll cs = ⟨cs.count '\n' + 1, 1⟩ := by
  have hline : (start.afterAll cs).line = cs.count '\n' + 1 := by
    rw [line_afterAll_eq, Nat.add_comm]
    rfl
  have hcolumn : (start.afterAll cs).column = 1 := by
    rcases h with rfl | h
    · rfl
    · obtain ⟨ds, rfl⟩ := List.getLast?_eq_some_iff.mp h
      rw [afterAll_append]
      rfl
  rw [← hline, ← hcolumn]

/-- Characters other than tabs and newlines are one column wide. -/
theorem afterAll_plain (p : Position) {cs : List Char} (hn : '\n' ∉ cs) (ht : '\t' ∉ cs) :
    p.afterAll cs = ⟨p.line, p.column + cs.length⟩ := by
  induction cs generalizing p with
  | nil => rfl
  | cons c cs ih =>
    rw [List.mem_cons, not_or] at hn ht
    rw [afterAll_cons, ih _ hn.2 ht.2, after, if_neg (Ne.symm hn.1), if_neg (Ne.symm ht.1),
      List.length_cons]
    simp only [mk.injEq, true_and]
    omega

end Position

namespace Source

/-- As many lines as there are newlines. -/
theorem dropLines_wholeLines {cs : List Char} (h : WholeLines cs) (ds : List Char) :
    dropLines (cs.count '\n') (cs ++ ds) = ds := by
  induction cs with
  | nil => simp [dropLines]
  | cons c cs ih =>
    obtain ⟨hrest, hmem⟩ := h.tail
    by_cases hc : c = '\n'
    · rw [hc, List.count_cons_self, List.cons_append, dropLines, if_pos rfl, ih hrest]
    · -- the line goes on, so its newline is still to come
      obtain ⟨n, hn⟩ := Nat.exists_eq_add_one.mpr (List.count_pos_iff.mpr (hmem hc))
      rw [List.count_cons_of_ne hc, hn, List.cons_append, dropLines, if_neg hc, ← hn, ih hrest]

theorem firstLine_append {line below : List Char} (hn : '\n' ∉ line) (hr : '\r' ∉ line)
    (hbelow : ∀ c ∈ below.head?, c = '\n') : firstLine (line ++ below) = line := by
  have htake : (line ++ below).takeWhile (· ≠ '\n') = line := by
    refine (takeWhile_append_of_head ?_ ?_).1
    · intro c hc
      simpa using ne_of_mem_of_not_mem hc hn
    · intro c hc
      simpa using hbelow c hc
  have hlast : line.getLast? ≠ some '\r' := fun h => hr (List.mem_of_getLast? h)
  simp only [firstLine, htake]
  rw [if_neg (fun h => hlast h.2)]

end Source

/-! ## Where a token stands -/

/-- Only a newline has a newline among its characters. -/
theorem Token.Whole.newline_notMem_raw {t : Token} (h : t.Whole) (hne : t ≠ .newline) :
    '\n' ∉ t.raw := by
  cases t with
  | eof => simp [Token.raw]
  | newline => exact absurd rfl hne
  | id x =>
    obtain ⟨c, cs, hx, hc, hcs⟩ := h.1
    rw [Token.raw, hx, List.mem_cons, not_or]
    refine ⟨?_, fun hmem => absurd (hcs _ hmem) (by decide)⟩
    rintro rfl
    exact absurd hc (by decide)
  | number d => exact fun hmem => absurd (h.2 _ hmem) (by decide)
  | str text => simpa [Token.raw] using Quotable.newline_notMem h
  | unknown u =>
    rcases h with ⟨c, hu, hc⟩ | ⟨inside, hu, inner, hi, hinside⟩
    · rw [Token.raw, hu, List.mem_singleton]
      rintro rfl
      exact absurd hc (by decide)
    · have hinner := hi.newline_notMem
      rcases hinside with rfl | rfl <;> simp [Token.raw, hu, hinner]
  | punctuation m => cases m <;> decide
  | operator op => rcases op with _ | _ | op | op <;> (try cases op) <;> decide
  | keyword k => cases k <;> decide

namespace Source

/-- Reading goes well up to the token `t` and stops there with `e`. -/
def StopsAt (s : Source) (t : Located Token) (e : Located ParseError) : Prop :=
  ∃ before after p, s.significant = before ++ t :: after ∧
    Progress.start.feedAll before = .ok p ∧ p.step t = .error e

theorem exists_stopsAt {s : Source} {e : Located ParseError} (h : s.parse = .error e) :
    ∃ t, s.StopsAt t e := by
  obtain ⟨before, t, after, p, hsplit, -, -, hp, ht⟩ := parse_eq_error h
  exact ⟨t, before, after, p, hsplit, hp, ht⟩

section

variable {s : Source} {t : Located Token} {e : Located ParseError}

theorem StopsAt.mem (h : s.StopsAt t e) : t ∈ s.significant := by
  obtain ⟨before, after, p, hsplit, -⟩ := h
  simp [hsplit]

theorem StopsAt.parse_eq (h : s.StopsAt t e) : s.parse = .error e := by
  have hn : t.val ≠ .newline := ne_newline_of_mem_significant h.mem
  obtain ⟨before, after, p, hsplit, hp, ht⟩ := h
  rw [parse_significant, BareBones.parse, hsplit, Progress.feedAll_append, hp]
  simp only [Except.bind, Progress.feedAll, p.feed_of_ne_newline hn, ht]
  rfl

theorem StopsAt.span_eq (h : s.StopsAt t e) : e.span = t.span := by
  obtain ⟨before, after, p, -, -, ht⟩ := h
  exact p.step_faultAt t e ht

end

/-- The token `t` stands on a line with `left` before it and `right` behind it, and the text has
whole lines above that one and goes on with `below`. -/
structure OnLine (s : Source) (t : Located Token) (above left right below : List Char) : Prop where
  text : s.text.toList = above ++ (left ++ t.val.raw ++ right) ++ below
  whole : WholeLines above
  unbroken : '\n' ∉ left ++ t.val.raw ++ right
  ended : ∀ c ∈ below.head?, c = '\n'
  occupies : s.Occupies t.val (above ++ left).length (above ++ left ++ t.val.raw).length
  first : t.span.first = s.positionAt (above ++ left).length
  last : t.span.last = t.span.first.afterAll t.val.raw.dropLast

theorem positionAt_length {s : Source} {cs ds : List Char} (h : s.text.toList = cs ++ ds) :
    s.positionAt cs.length = Position.start.afterAll cs := by
  rw [positionAt, h, List.take_left]

/-- Each token but a newline stands on one line. -/
theorem exists_onLine {s : Source} {t : Located Token} (h : t ∈ s.significant) :
    ∃ above left right below, s.OnLine t above left right below := by
  have hnewline : t.val ≠ .newline := ne_newline_of_mem_significant h
  rw [significant, s.tokens_eq] at h
  obtain ⟨hs, g, gs, happend, rfl⟩ := Segment.exists_of_mem_locateAll (List.mem_filter.mp h).1
  have htext := s.text_segments
  have hcut := s.segments_cut
  rw [happend] at hcut htext
  have hraw := (hcut.whole_of_mem (by simp)).newline_notMem_raw hnewline
  obtain ⟨above, left, hbefore, habove, hleft⟩ := exists_lastLine (Segment.text hs ++ g.gap)
  obtain ⟨right, below, hbehind, hright, hbelow⟩ := exists_firstLine (Segment.text gs)
  have hsplit : s.text.toList = above ++ left ++ (g.token.raw ++ (right ++ below)) := by
    rw [← htext, ← hbefore, ← hbehind]
    simp
  refine ⟨above, left, right, below, ?_⟩
  constructor
  case text => simp [hsplit]
  case whole => exact habove
  case unbroken => simp [hleft, hright, hraw]
  case ended => exact hbelow
  case occupies => exact ⟨hs, g, gs, happend, rfl, by rw [hbefore], List.length_append⟩
  case first =>
    rw [positionAt_length hsplit, ← hbefore, Position.afterAll_append]
    rfl
  case last => rfl

namespace OnLine

variable {s : Source} {t : Located Token} {above left right below : List Char}

theorem line_and_column (h : s.OnLine t above left right below) :
    t.span.first = Position.afterAll ⟨above.count '\n' + 1, 1⟩ left := by
  have hsplit : s.text.toList = above ++ left ++ (t.val.raw ++ right ++ below) := by simp [h.text]
  rw [h.first, positionAt_length hsplit, Position.afterAll_append,
    Position.afterAll_wholeLines h.whole]

/-- Cutting the text at its newlines gives the line of the token. -/
theorem line_eq (h : s.OnLine t above left right below) (hr : '\r' ∉ s.text.toList) :
    s.line t.span.first.line = String.ofList (left ++ t.val.raw ++ right) := by
  have hleft : '\n' ∉ left :=
    fun hmem => h.unbroken (List.mem_append_left _ (List.mem_append_left _ hmem))
  have hnumber : t.span.first.line = above.count '\n' + 1 := by
    rw [h.line_and_column, Position.line_afterAll _ hleft]
  have hcr : '\r' ∉ left ++ t.val.raw ++ right := by
    intro hmem
    rw [h.text] at hr
    exact hr (List.mem_append_left _ (List.mem_append_right _ hmem))
  rw [hnumber, Source.line, h.text, List.append_assoc, dropLines_wholeLines h.whole,
    firstLine_append h.unbroken hcr h.ended]

/-- On a line without tabs the columns of the token count its characters. -/
theorem span_eq (h : s.OnLine t above left right below)
    (htab : '\t' ∉ left ++ t.val.raw ++ right) : ∃ n, t.span =
      ⟨⟨n, left.length + 1⟩, ⟨n, left.length + 1 + (t.val.raw.length - 1)⟩⟩ := by
  have hfirst := h.line_and_column
  have hlast := h.last
  have hline := h.unbroken
  simp only [List.mem_append, not_or] at htab hline
  rw [Position.afterAll_plain _ hline.1.1 htab.1.1] at hfirst
  rw [Position.afterAll_plain _ (fun hmem => hline.1.2 (List.dropLast_subset _ hmem))
    (fun hmem => htab.1.2 (List.dropLast_subset _ hmem)), hfirst] at hlast
  refine ⟨above.count '\n' + 1, ?_⟩
  rw [show t.span = ⟨t.span.first, t.span.last⟩ from rfl, hlast, hfirst, List.length_dropLast,
    Nat.add_comm 1]

/-- The end of the text is the end of its last line, which is empty behind a newline. -/
theorem of_eof (h : s.OnLine t above left right below) (he : t.val = .eof) :
    right = [] ∧ below = [] ∧ (s.text.toList.getLast? = some '\n' → left = []) := by
  have hraw : t.val.raw = [] := by
    rw [he]
    rfl
  obtain ⟨hs, g, gs, happend, hg, hbefore, -⟩ := h.occupies
  have hcut := s.segments_cut
  have htext := s.text_segments
  have hs' := h.text
  rw [happend] at hcut htext
  obtain rfl : gs = [] := by
    refine Classical.byContradiction fun hne => ?_
    exact ((hcut.of_append (by simp)).1.uncons hne).1 (hg.trans he)
  -- all characters stand before the end
  have hlength : (above ++ left).length = s.text.toList.length := by
    rw [hbefore, ← htext]
    simp [hg, hraw]
  rw [hraw, List.append_nil] at hs'
  have hrest : right = [] ∧ below = [] := by
    rw [hs'] at hlength
    simp only [List.length_append] at hlength
    constructor
    · exact List.eq_nil_of_length_eq_zero (by omega)
    · exact List.eq_nil_of_length_eq_zero (by omega)
  refine ⟨hrest.1, hrest.2, fun hlast => ?_⟩
  rw [hs', hrest.1, hrest.2, List.append_nil, List.append_nil] at hlast
  cases hl : left.getLast? with
  | none => exact List.getLast?_eq_none_iff.mp hl
  | some c =>
    rw [List.getLast?_append, hl] at hlast
    obtain rfl : c = '\n' := by simpa using hlast
    have hmem : '\n' ∈ left := List.mem_of_getLast? hl
    exact absurd (List.mem_append_left _ (List.mem_append_left _ hmem)) h.unbroken

end OnLine

end Source

/-! ## Reports -/

namespace Report

/-- A report on one line, with carets below the characters `raw` between `left` and `right`;
one caret marks the place where there is no character. -/
def underlining (heading cited : String) (n : Nat) (left raw right : List Char) : String :=
  let margin := Complaint.blanks (toString n).length
  unlines [heading, margin ++ "--> " ++ cited, margin ++ " |",
    toString n ++ " | " ++ String.ofList (left ++ raw ++ right),
    margin ++ " | " ++ Complaint.blanks left.length ++
      String.ofList (List.replicate (max 1 raw.length) '^'),
    "", "Translation failed with 1 error"]

end Report

namespace Complaint

theorem carets_on_line (n left width : Nat) :
    carets ⟨⟨n, left + 1⟩, ⟨n, left + 1 + (width - 1)⟩⟩ =
      blanks left ++ String.ofList (List.replicate (max 1 width) '^') := by
  have hleft : min (left + 1) (left + 1 + (width - 1)) - 1 = left := by omega
  have hright : max (left + 1) (left + 1 + (width - 1)) -
      min (left + 1) (left + 1 + (width - 1)) + 1 = max 1 width := by omega
  simp only [carets, hleft, hright]

theorem padded_self (n : Nat) : padded (toString n).length n = toString n := by
  simp [padded, blanks]

end Complaint

namespace Source

theorem render_report_on_line (s : Source) {e : Located ParseError} {n : Nat}
    {left raw right : List Char}
    (hspan : e.span = ⟨⟨n, left.length + 1⟩, ⟨n, left.length + 1 + (raw.length - 1)⟩⟩)
    (hline : s.line n = String.ofList (left ++ raw ++ right)) :
    (s.report e).render = Report.underlining (e.val.label ++ ": " ++ e.val.message)
      (s.cite e.span) n left raw right := by
  have hquoted : Complaint.quoted ⟨e.val.message, s, e.span⟩ n =
      toString n ++ " | " ++ String.ofList (left ++ raw ++ right) := by
    rw [Complaint.quoted, Complaint.margin, hspan, Complaint.padded_self, hline]
  have hnumbers : Complaint.lineNumbers e.span = [n] := by
    rw [Complaint.lineNumbers, hspan]
    simp
  have hcarets : Complaint.carets e.span = Complaint.blanks left.length ++
      String.ofList (List.replicate (max 1 raw.length) '^') := by
    rw [hspan, Complaint.carets_on_line]
  have hmargin : Complaint.margin ⟨e.val.message, s, e.span⟩ = (toString n).length := by
    rw [Complaint.margin, hspan]
  have hrows : Complaint.rows ⟨e.val.message, s, e.span⟩ =
      [Complaint.blanks (toString n).length ++ "--> " ++ s.cite e.span,
        Complaint.blanks (toString n).length ++ " |",
        toString n ++ " | " ++ String.ofList (left ++ raw ++ right),
        Complaint.blanks (toString n).length ++ " | " ++ Complaint.blanks left.length ++
          String.ofList (List.replicate (max 1 raw.length) '^')] := by
    rw [Complaint.rows, hmargin, hnumbers, hcarets, List.map_singleton, hquoted,
      ← String.append_assoc]
    rfl
  have hrender : (s.report e).render =
      Report.unlines (((e.val.label ++ ": " ++ e.val.message) ::
        Complaint.rows ⟨e.val.message, s, e.span⟩ ++ [""]) ++ [Report.verdict 1]) := by
    rw [report, Report.render]
    simp [Report.isEmpty]
  have hverdict : Report.verdict 1 = "Translation failed with 1 error" := by decide
  rw [hrender, hrows, Report.underlining, hverdict]
  rfl

/-- The token at which reading stops is underlined. The report on it quotes the line that the
token stands on and no other; if there is no tab on it, the carets stand exactly below the
characters of the token. The end of the text is marked by one caret behind the last line. -/
theorem report_underlines {s : Source} {f : C.Format} {r : Report} (h : s.compile f = .error r)
    (hr : '\r' ∉ s.text.toList) : ∃ t e above left right below,
      s.StopsAt t e ∧ s.OnLine t above left right below ∧
      (t.val = .eof →
        right = [] ∧ below = [] ∧ (s.text.toList.getLast? = some '\n' → left = [])) ∧
      ('\t' ∉ left ++ t.val.raw ++ right → r.render =
        Report.underlining (e.val.label ++ ": " ++ e.val.message) (s.cite t.span)
          t.span.first.line left t.val.raw right) := by
  unfold compile at h
  split at h
  · cases h
  · rename_i e he
    cases h
    obtain ⟨t, hstops⟩ := exists_stopsAt he
    obtain ⟨above, left, right, below, honLine⟩ := exists_onLine hstops.mem
    refine ⟨t, e, above, left, right, below, hstops, honLine, honLine.of_eof, ?_⟩
    intro htab
    obtain ⟨n, hn⟩ := honLine.span_eq htab
    have hfirst : t.span.first.line = n := by rw [hn]
    have hline : s.line n = _ := hfirst ▸ honLine.line_eq hr
    rw [s.render_report_on_line (hstops.span_eq.trans hn) hline, hstops.span_eq, hfirst]

/-- A text that its line does not close, with a line behind it. -/
def openQuote : Source where
  name := "open"
  text := "let x = 1;\nprint(x, \"and so on\\\");\nread(x);\n"

theorem report_underlines_openQuote :
    ∃ r, openQuote.compile .pretty = .error r ∧ '\r' ∉ openQuote.text.toList ∧
      ∃ t e above left right below,
        openQuote.StopsAt t e ∧ openQuote.OnLine t above left right below ∧
        (t.val = .eof →
          right = [] ∧ below = [] ∧ (openQuote.text.toList.getLast? = some '\n' → left = [])) ∧
        '\t' ∉ left ++ t.val.raw ++ right ∧ r.render =
          Report.underlining (e.val.label ++ ": " ++ e.val.message) (openQuote.cite t.span)
            t.span.first.line left t.val.raw right := by
  have herror : (openQuote.compile .pretty).isOk = false := by decide +kernel
  have hr : '\r' ∉ openQuote.text.toList := by decide
  cases h : openQuote.compile .pretty with
  | ok c =>
    rw [h] at herror
    cases herror
  | error r =>
    obtain ⟨t, e, above, left, right, below, hstops, honLine, heof, hrender⟩ :=
      report_underlines h hr
    have htab : '\t' ∉ left ++ t.val.raw ++ right := by
      have hno : '\t' ∉ openQuote.text.toList := by decide
      rw [honLine.text] at hno
      exact fun hmem => hno (List.mem_append_left _ (List.mem_append_right _ hmem))
    exact ⟨r, rfl, hr, t, e, above, left, right, below, hstops, honLine, heof, htab, hrender htab⟩

end Source

end BareBones
