import BareBones.Proofs.TextLines
import Mathlib.Data.Nat.PSub

/-!
How a report quotes its source. A report can be about any two places of a text, in either
order. Their columns count from one (`Source.one_le_column_of_mem_places`), so nothing that
a report is measured by falls below zero (`Report.render?_eq`); and the number of a quoted
line is no wider than that of the last one (`length_toString_le`), so that the bars stand
below each other. Main statement: `Source.report_aligned`.
-/

namespace BareBones

/-! ## Places -/

namespace Source

/-- Where a report can point to: at the characters of the text, and behind them. -/
def places (s : Source) : List Position := s.characters.map (·.2) ++ [s.ending]

theorem one_le_column_of_mem_places {s : Source} {p : Position} (h : p ∈ s.places) :
    1 ≤ p.column := by
  rw [places, List.mem_append, List.mem_singleton, List.mem_map] at h
  rcases h with ⟨a, ha, rfl⟩ | rfl
  · exact one_le_column_of_mem_walk (p := .start) (Nat.le_refl 1) ha
  · exact Position.start.one_le_column_afterAll _ (Nat.le_refl 1)

theorem newline_notMem_firstLine (cs : List Char) : '\n' ∉ firstLine cs := by
  have hbody : '\n' ∉ cs.takeWhile (· ≠ '\n') := by
    intro hmem
    simpa using List.all_eq_true.mp List.all_takeWhile _ hmem
  simp only [firstLine]
  split
  · exact fun hmem => hbody (List.dropLast_subset _ hmem)
  · exact hbody

theorem newline_notMem_line (s : Source) (n : Nat) : '\n' ∉ (s.line n).toList := by
  cases n with
  | zero => simp [line]
  | succ n =>
    rw [line, String.toList_ofList]
    exact newline_notMem_firstLine _

end Source

/-! ## Differences -/

namespace Complaint

/-- The carets, if the differences that measure them are not below zero. The other
differences in a report stop at zero by intent: there may be no line to quote, and no
column left over beside a number. -/
def carets? (s : Span) : Option String := do
  let left := min s.first.column s.last.column
  let right := max s.first.column s.last.column
  let indent ← left.psub 1
  let width ← right.psub left
  return blanks indent ++ String.ofList (List.replicate (width + 1) '^')

/-- Quoted rows between the bar above them and the marks below them. -/
def frame (width : Nat) (quoted : List String) (marks : String) : List String :=
  (blanks width ++ " |") :: quoted ++ [blanks width ++ " | " ++ marks]

def rowsMarked (c : Complaint) (marks : String) : List String :=
  (blanks c.margin ++ "--> " ++ c.source.cite c.span) ::
    frame c.margin ((lineNumbers c.span).map c.quoted) marks

def rows? (c : Complaint) : Option (List String) := (carets? c.span).map c.rowsMarked

theorem rows_eq (c : Complaint) : c.rows = c.rowsMarked (carets c.span) := rfl

theorem carets?_eq {s : Span} (hfirst : 1 ≤ s.first.column) (hlast : 1 ≤ s.last.column) :
    carets? s = some (carets s) := by
  have hindent : (min s.first.column s.last.column).psub 1 =
      some (min s.first.column s.last.column - 1) := Nat.psub_eq_sub (by omega)
  have hwidth : (max s.first.column s.last.column).psub (min s.first.column s.last.column) =
      some (max s.first.column s.last.column - min s.first.column s.last.column) :=
    Nat.psub_eq_sub (by omega)
  simp only [carets?, hindent, hwidth]
  rfl

example : carets? ⟨⟨1, 0⟩, ⟨1, 4⟩⟩ = none := rfl

end Complaint

namespace Report

/-- The rows on all complaints, one behind the other. -/
def entries? (label : String) : List Complaint → Option (List String)
  | [] => some []
  | c :: cs => do
    let rows ← c.rows?
    let rest ← entries? label cs
    return (label ++ ": " ++ c.message) :: rows ++ [""] ++ rest

/-- The text of a report, if the differences that measure it are not below zero. -/
def render? (r : Report) : Option String :=
  if r.isEmpty then some "No errors were reported\n"
  else (entries? r.label r.complaints).map fun rows =>
    unlines (rows ++ [verdict r.complaints.length])

theorem entries?_eq (label : String) {cs : List Complaint}
    (h : ∀ c ∈ cs, 1 ≤ c.span.first.column ∧ 1 ≤ c.span.last.column) :
    entries? label cs =
      some (cs.flatMap fun c => (label ++ ": " ++ c.message) :: c.rows ++ [""]) := by
  induction cs with
  | nil => rfl
  | cons c cs ih =>
    obtain ⟨⟨hfirst, hlast⟩, hrest⟩ := List.forall_mem_cons.mp h
    have hrows : c.rows? = some c.rows := by
      rw [Complaint.rows?, Complaint.carets?_eq hfirst hlast, Complaint.rows_eq, Option.map_some]
    rw [entries?, hrows, ih hrest, List.flatMap_cons]
    rfl

/-- Columns that count from one are all that a report needs. -/
theorem render?_eq {r : Report}
    (h : ∀ c ∈ r.complaints, 1 ≤ c.span.first.column ∧ 1 ≤ c.span.last.column) :
    r.render? = some r.render := by
  rw [render?, render, entries?_eq r.label h]
  split <;> rfl

end Report

/-! ## Bars and marks -/

/-- The row is one row of the text, and its first bar stands one column behind a margin of the
given width. -/
def Barred (width : Nat) (row : String) : Prop :=
  '\n' ∉ row.toList ∧ '|' ∉ row.toList.take (width + 1) ∧ row.toList[width + 1]? = some '|'

theorem barred_append {gutter rest : String} (hgutter : ∀ c ∈ gutter.toList, c ≠ '\n' ∧ c ≠ '|')
    (hrest : '\n' ∉ rest.toList) : Barred gutter.length (gutter ++ " |" ++ rest) := by
  have hbreak : '\n' ∉ gutter.toList := fun hmem => (hgutter _ hmem).1 rfl
  have hbar : '|' ∉ gutter.toList := fun hmem => (hgutter _ hmem).2 rfl
  have hrow : (gutter ++ " |" ++ rest).toList =
      (gutter.toList ++ [' ']) ++ '|' :: rest.toList := by simp
  have hlength : (gutter.toList ++ [' ']).length = gutter.length + 1 := by
    simp [String.length_toList]
  rw [Barred, hrow, ← hlength, List.take_left, List.getElem?_append_right (Nat.le_refl _),
    Nat.sub_self]
  exact ⟨by simp [hbreak, hrest], by simp [hbar], rfl⟩

theorem append_bar_append (gutter rest : String) :
    gutter ++ " | " ++ rest = gutter ++ " |" ++ (" " ++ rest) := by
  rw [show " | " = " |" ++ " " from rfl]
  simp only [String.append_assoc]

/-- A smaller number is written with no more digits. -/
theorem length_toString_le {m n : Nat} (h : m ≤ n) :
    (toString m).length ≤ (toString n).length := by
  have hpos : 0 < (toString n).length := Nat.length_repr_pos
  have hlt : n < 10 ^ (toString n).length := (Nat.length_repr_le_iff hpos).mp (Nat.le_refl _)
  exact (Nat.length_repr_le_iff hpos).mpr (Nat.lt_of_le_of_lt h hlt)

namespace Complaint

@[simp] theorem toList_blanks (n : Nat) : (blanks n).toList = List.replicate n ' ' :=
  String.toList_ofList

theorem length_blanks (n : Nat) : (blanks n).length = n := by
  rw [← String.length_toList, toList_blanks, List.length_replicate]

theorem length_padded {width n : Nat} (h : (toString n).length ≤ width) :
    (padded width n).length = width := by
  rw [padded, String.length_append, length_blanks]
  omega

theorem mem_blanks {c : Char} {n : Nat} (h : c ∈ (blanks n).toList) : c ≠ '\n' ∧ c ≠ '|' := by
  rw [toList_blanks] at h
  rw [List.eq_of_mem_replicate h]
  decide

theorem mem_padded {c : Char} {width n : Nat} (h : c ∈ (padded width n).toList) :
    c ≠ '\n' ∧ c ≠ '|' := by
  rw [padded, String.toList_append, List.mem_append] at h
  rcases h with h | h
  · exact mem_blanks h
  · have hdigit := (toString_digits n).2 c h
    constructor <;> rintro rfl <;> cases hdigit

theorem toList_carets (s : Span) :
    (carets s).toList = List.replicate (min s.first.column s.last.column - 1) ' ' ++
      List.replicate
        (max s.first.column s.last.column - min s.first.column s.last.column + 1) '^' := by
  rw [carets, String.toList_append, toList_blanks, String.toList_ofList]

/-- The `i`-th mark stands in the column with the number `i + 1`. -/
theorem getElem?_carets {s : Span} (hfirst : 1 ≤ s.first.column) (hlast : 1 ≤ s.last.column)
    (i : Nat) : (carets s).toList[i]? =
      if i + 1 < min s.first.column s.last.column then some ' '
      else if i + 1 ≤ max s.first.column s.last.column then some '^'
      else none := by
  rw [toList_carets]
  by_cases hleft : i + 1 < min s.first.column s.last.column
  · rw [if_pos hleft, List.getElem?_append_left (by rw [List.length_replicate]; omega),
      List.getElem?_replicate_of_lt (by omega)]
  · rw [if_neg hleft, List.getElem?_append_right (by rw [List.length_replicate]; omega),
      List.length_replicate, List.getElem?_replicate]
    by_cases hright : i + 1 ≤ max s.first.column s.last.column
    · rw [if_pos hright, if_pos (by omega)]
    · rw [if_neg hright, if_neg (by omega)]

end Complaint

/-! ## Excerpts -/

/-- What a report on the places `p` and `q` shows of the source: in the rows `quoted` each line
from that of `p` to that of `q`, none if `q` is further up, and in `marks` a caret for each
column from the one to the other. -/
structure Source.Excerpt (s : Source) (p q : Position) (quoted : List String) (marks : String) :
    Prop where
  count : quoted.length = q.line + 1 - p.line
  line : ∀ k, p.line + k ≤ q.line → ∃ indent,
    indent + (toString (p.line + k)).length = (toString q.line).length ∧
    quoted[k]? = some (Complaint.blanks indent ++ toString (p.line + k) ++ " | " ++
      s.line (p.line + k))
  caret : ∀ i, marks.toList[i]? =
    if i + 1 < min p.column q.column then some ' '
    else if i + 1 ≤ max p.column q.column then some '^'
    else none

namespace Complaint

theorem excerpt {s : Source} {span : Span} (hfirst : 1 ≤ span.first.column)
    (hlast : 1 ≤ span.last.column) (message : String) :
    s.Excerpt span.first span.last ((lineNumbers span).map (quoted ⟨message, s, span⟩))
      (carets span) where
  count := by rw [List.length_map, lineNumbers, List.length_range']
  line := by
    intro k hk
    have hwidth := length_toString_le hk
    refine ⟨(toString span.last.line).length - (toString (span.first.line + k)).length,
      Nat.sub_add_cancel hwidth, ?_⟩
    rw [List.getElem?_map, lineNumbers, List.getElem?_range' (by omega), Nat.one_mul]
    rfl
  caret := getElem?_carets hfirst hlast

theorem barred_blanks (width : Nat) {rest : String} (h : '\n' ∉ rest.toList) :
    Barred width (blanks width ++ " |" ++ rest) := by
  have hrow : Barred (blanks width).length _ := barred_append (fun _ => mem_blanks) h
  rwa [length_blanks] at hrow

theorem barred_quoted {c : Complaint} {n : Nat} (h : n ∈ lineNumbers c.span) :
    Barred c.margin (c.quoted n) := by
  have hn : n ≤ c.span.last.line := by
    rw [lineNumbers, List.mem_range'_1] at h
    omega
  have hrest : '\n' ∉ (" " ++ c.source.line n).toList := by
    simp [c.source.newline_notMem_line n]
  have hlength : (padded c.margin n).length = c.margin := length_padded (length_toString_le hn)
  have hrow : Barred (padded c.margin n).length _ := barred_append (fun _ => mem_padded) hrest
  rwa [hlength, ← append_bar_append] at hrow

theorem barred_frame {width : Nat} {quoted : List String} {marks : String}
    (hquoted : ∀ row ∈ quoted, Barred width row) (hmarks : '\n' ∉ marks.toList) :
    ∀ row ∈ frame width quoted marks, Barred width row := by
  intro row hrow
  rw [frame, List.mem_append, List.mem_cons, List.mem_singleton] at hrow
  rcases hrow with (rfl | hrow) | rfl
  · have hempty : '\n' ∉ "".toList := by decide
    have hbare := barred_blanks width hempty
    rwa [String.append_empty] at hbare
  · exact hquoted row hrow
  · rw [append_bar_append]
    exact barred_blanks width (by simp [hmarks])

end Complaint

theorem Report.render_single (label : String) (c : Complaint) :
    Report.render ⟨label, [c]⟩ = unlines
      ((label ++ ": " ++ c.message) :: c.rows ++ ["", "Translation failed with 1 error"]) := by
  have hverdict : verdict 1 = "Translation failed with 1 error" := by decide
  rw [← hverdict]
  simp [render, isEmpty]

/-- A report on any two places of a text, in either order, is measured without a difference
below zero. It quotes the lines from that of the first place to that of the second and puts
carets below the columns from the one to the other. From the first bar to the carets each row
has its bar behind as many columns as the last line's number has digits, and one more. -/
theorem Source.report_aligned {s : Source} {p q : Position} (hp : p ∈ s.places)
    (hq : q ∈ s.places) (label message : String) :
    let span := (Span.point p).upTo (.point q)
    let r : Report := ⟨label, [⟨message, s, span⟩]⟩
    let width := (toString q.line).length
    r.render? = some r.render ∧
    ∃ quoted marks, s.Excerpt p q quoted marks ∧
      r.render = Report.unlines ((label ++ ": " ++ message) ::
        (Complaint.blanks width ++ "--> " ++ s.cite span) :: Complaint.frame width quoted marks ++
        ["", "Translation failed with 1 error"]) ∧
      ∀ row ∈ Complaint.frame width quoted marks, Barred width row := by
  intro span r width
  have hfirst : 1 ≤ span.first.column := one_le_column_of_mem_places hp
  have hlast : 1 ≤ span.last.column := one_le_column_of_mem_places hq
  refine ⟨Report.render?_eq (List.forall_mem_singleton.mpr ⟨hfirst, hlast⟩), _, _,
    Complaint.excerpt hfirst hlast message, ?_, ?_⟩
  · exact Report.render_single label ⟨message, s, span⟩
  · refine Complaint.barred_frame ?_ (by simp [Complaint.toList_carets])
    rw [List.forall_mem_map]
    exact fun n => Complaint.barred_quoted (c := ⟨message, s, span⟩)

/-- From a place behind a tab on the ninth line to the end of the text on the tenth, which is
further to the left. -/
def Source.lastLines : Source where
  name := "late"
  text := "let x = 1;\n\n\n\n\n\n\n\n\tx = x;\nread(x"

theorem Source.report_aligned_lastLines :
    (⟨9, 9⟩ : Position) ∈ lastLines.places ∧ (⟨10, 7⟩ : Position) ∈ lastLines.places ∧
    Report.render? ⟨"error", [⟨"Late", lastLines, ⟨⟨9, 9⟩, ⟨10, 7⟩⟩⟩]⟩ =
      some ("error: Late\n  --> late:[9:9-10:7]\n   |\n 9 | \tx = x;\n10 | read(x\n" ++
        "   |       ^^^\n\nTranslation failed with 1 error\n") ∧
    ∃ quoted marks, lastLines.Excerpt ⟨9, 9⟩ ⟨10, 7⟩ quoted marks ∧
      ∀ row ∈ Complaint.frame 2 quoted marks, Barred 2 row := by
  have hp : (⟨9, 9⟩ : Position) ∈ lastLines.places := by decide +kernel
  have hq : (⟨10, 7⟩ : Position) ∈ lastLines.places := by decide +kernel
  have hwidth : (toString (10 : Nat)).length = 2 := by decide +kernel
  have htext : Report.render ⟨"error", [⟨"Late", lastLines, ⟨⟨9, 9⟩, ⟨10, 7⟩⟩⟩]⟩ =
      "error: Late\n  --> late:[9:9-10:7]\n   |\n 9 | \tx = x;\n10 | read(x\n" ++
        "   |       ^^^\n\nTranslation failed with 1 error\n" := by decide +kernel
  have hreport := report_aligned hp hq "error" "Late"
  simp only [hwidth] at hreport
  obtain ⟨hrender, quoted, marks, hexcerpt, -, hbarred⟩ := hreport
  exact ⟨hp, hq, hrender.trans (congrArg some htext), quoted, marks, hexcerpt, hbarred⟩

end BareBones
