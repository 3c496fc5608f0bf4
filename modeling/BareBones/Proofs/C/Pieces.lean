import BareBones.Proofs.C.Formats

/-!
Pieces in the text. A layout keeps every piece that it is given, in order
(`Layout.pieces_finish`), and a line writes its pieces one behind the other with
nothing between them but blanks, so the pieces of a program stand in order in its C
text, whatever the format (`Program.pieces_inOrder`).
-/

namespace BareBones

open C

namespace C

/-! ## Texts inside a text -/

/-- The words stand in the text one behind the other, with any characters between them. -/
def InOrder : List (List Char) → List Char → Prop
  | [], _ => True
  | w :: ws, cs => ∃ before behind, cs = before ++ (w ++ behind) ∧ InOrder ws behind

namespace InOrder

variable {ws vs : List (List Char)} {cs ds : List Char}

theorem behind (h : InOrder ws cs) (before : List Char) : InOrder ws (before ++ cs) := by
  cases ws with
  | nil => trivial
  | cons w ws =>
    obtain ⟨first, rest, rfl, hrest⟩ := h
    exact ⟨before ++ first, rest, (List.append_assoc ..).symm, hrest⟩

theorem append (h : InOrder ws cs) (h' : InOrder vs ds) : InOrder (ws ++ vs) (cs ++ ds) := by
  induction ws generalizing cs with
  | nil => exact h'.behind cs
  | cons w ws ih =>
    obtain ⟨before, rest, rfl, hrest⟩ := h
    exact ⟨before, rest ++ ds, by simp, ih hrest⟩

theorem before (h : InOrder ws cs) (rest : List Char) : InOrder ws (cs ++ rest) := by
  have happend : InOrder (ws ++ []) (cs ++ rest) := h.append trivial
  rwa [List.append_nil] at happend

/-- Words that are left out are characters between the others. -/
theorem sublist (hs : vs.Sublist ws) (h : InOrder ws cs) : InOrder vs cs := by
  induction hs generalizing cs with
  | slnil => trivial
  | cons w _ ih =>
    obtain ⟨before, rest, rfl, hrest⟩ := h
    rw [← List.append_assoc]
    exact (ih hrest).behind (before ++ w)
  | cons_cons w _ ih =>
    obtain ⟨before, rest, rfl, hrest⟩ := h
    exact ⟨before, rest, rfl, ih hrest⟩

end InOrder

/-! ## Pieces of a layout -/

def Item.piece? : Item → Option Piece
  | .piece p => some p
  | .beginBlock | .endBlock | .endStatement => none

namespace Layout

/-- All pieces so far, the oldest first. -/
def pieces (l : Layout) : List Piece := l.lines.reverse.flatMap Line.pieces ++ l.pending.reverse

theorem pieces_put (l : Layout) (item : Item) :
    (l.put item).pieces = l.pieces ++ item.piece?.toList := by
  cases item <;> simp [put, flush, pieces, Item.piece?]

theorem pieces_foldl_put (l : Layout) (items : List Item) :
    (items.foldl put l).pieces = l.pieces ++ items.filterMap Item.piece? := by
  induction items generalizing l with
  | nil => simp
  | cons item items ih =>
    rw [List.foldl_cons, ih, pieces_put, List.append_assoc]
    cases h : item.piece? <;> simp [h]

/-- The lines of a layout have the pieces that were put into it. -/
theorem pieces_finish (items : List Item) :
    (ofItems items).finish.flatMap Line.pieces = items.filterMap Item.piece? := by
  have hall := pieces_foldl_put {} items
  simp only [pieces, List.reverse_nil, List.flatMap_nil, List.nil_append] at hall
  rw [← hall, ofItems, finish, flush, List.reverse_cons, List.flatMap_append,
    List.flatMap_singleton]

end Layout

/-! ## Pieces of a line -/

/-- The characters of a piece. -/
def Piece.chars (f : Format) (p : Piece) : List Char := (p.text f).toList

/-- A pen writes the pieces behind what it has written. -/
theorem Pen.foldl_put_inOrder (f : Format) (pieces : List Piece) (pen : Pen) :
    ∃ added, (pieces.foldl (put f) pen).written.reverse = pen.written.reverse ++ added ∧
      InOrder (pieces.map (Piece.chars f)) added := by
  induction pieces generalizing pen with
  | nil => exact ⟨[], by simp, trivial⟩
  | cons p pieces ih =>
    obtain ⟨added, hwritten, hadded⟩ := ih (pen.put f p)
    obtain ⟨gap, hput⟩ : ∃ gap, (pen.put f p).written.reverse =
        pen.written.reverse ++ (gap ++ p.chars f) := by
      rw [put]
      split
      · exact ⟨[' '], by simp [Piece.chars]⟩
      · exact ⟨[], by simp [Piece.chars]⟩
    refine ⟨gap ++ (p.chars f ++ added), ?_, gap, added, rfl, hadded⟩
    rw [List.foldl_cons, hwritten, hput]
    simp

theorem Line.pieces_inOrder (f : Format) (l : Line) :
    InOrder (l.pieces.map (Piece.chars f)) (l.text f).toList := by
  obtain ⟨added, hwritten, hadded⟩ := Pen.foldl_put_inOrder f l.pieces {}
  have hcontent : content f l.pieces = added := hwritten
  rw [text, String.toList_ofList, hcontent]
  exact hadded.before _

theorem lineChars_inOrder (f : Format) (l : Line) :
    InOrder (l.pieces.map (Piece.chars f)) (lineChars f l) := by
  have hline := l.pieces_inOrder f
  cases f with
  | compact => exact hline
  | pretty =>
    rw [lineChars]
    split
    · rename_i hempty
      rwa [hempty] at hline
    · simpa [prettyLine] using (hline.before ['\n']).behind (indentation (l.depth + 1)).toList

theorem lines_inOrder (f : Format) (lines : List Line) :
    InOrder ((lines.flatMap Line.pieces).map (Piece.chars f)) (lines.flatMap (lineChars f)) := by
  induction lines with
  | nil => trivial
  | cons l lines ih =>
    rw [List.flatMap_cons, List.flatMap_cons, List.map_append]
    exact (lineChars_inOrder f l).append ih

/-- The lines stand in the text of the program as they are. -/
theorem exists_render (f : Format) (xs : List String) (lines : List Line) :
    ∃ before behind, (render f xs lines).toList =
      before ++ lines.flatMap (lineChars f) ++ behind := by
  cases f with
  | pretty =>
    rw [render_pretty, ← flatMap_nonempty_pretty]
    simp only [String.toList_append, String.toList_join, List.flatMap_map]
    exact ⟨_, _, rfl⟩
  | compact =>
    rw [render_compact, ← flatMap_nonempty_compact]
    simp only [String.toList_append, String.toList_join, List.flatMap_map]
    exact ⟨_, _, rfl⟩

end C

/-! ## Pieces of a program -/

/-- Nothing that the statements of a program put into its layout is lost or moved. -/
theorem Program.pieces_inOrder (p : Program) (f : Format) :
    InOrder (((C.Statement.itemsAll (Statement.lowerAll 0 p.statements)).filterMap
      Item.piece?).map (Piece.chars f)) (p.toC f).toList := by
  obtain ⟨before, behind, htext⟩ := exists_render f p.declarations p.lines
  rw [Program.toC, htext, ← Layout.pieces_finish]
  exact ((lines_inOrder f p.lines).behind before).before behind

end BareBones
