import BareBones.Proofs.C.Formats

/-!
Formats and whitespace. Each call on a layout adds one fragment to the text, which does
not depend on the format (`Item.fragment`); blanks, margins and ends of lines are all that
a format adds on its own. So the text that any calls lead to is, apart from whitespace,
that of their fragments in order, in both formats (`render_sifted`).
-/

namespace BareBones.C

/-! ## What a call adds -/

/-- The text of a piece without the blanks that a format may put into it. -/
def Piece.fragment : Piece → String
  | token t => t.toC
  | print format args =>
    "printf(\"" ++ format ++ "\"" ++ String.join (args.map ("," ++ ·)) ++ ")"
  | read target => "scanf(\"%d\",&" ++ target ++ ")"
  | loop counter bound none =>
    "for(int " ++ counter ++ "=0" ++ ";" ++ counter ++ "<" ++ bound ++ ";" ++ counter ++ "++)"
  | loop counter bound (some limit) =>
    "for(int " ++ counter ++ "=0" ++ "," ++ limit ++ "=" ++ bound ++ ";" ++
      counter ++ "<" ++ limit ++ ";" ++ counter ++ "++)"

def Item.fragment : Item → String
  | .piece p => p.fragment
  | .beginBlock => "\x7b"
  | .endBlock => "\x7d"
  | .endStatement => ";"

/-- The fragments of a whole text: what stands at its top, the declarations, those of the
calls, and the brace that closes `main`. -/
def fragmentsOf (declarations : List String) (items : List Item) : List String :=
  ["#include <stdio.h>", "int main(void)", "\x7b"] ++ declarations.map declaration ++
    items.map Item.fragment ++ ["\x7d"]

/-! ## Characters of a layout -/

theorem Line.content_concat (f : Format) (ps : List Piece) (p : Piece) :
    ∃ gap, (gap = [] ∨ gap = [' ']) ∧
      content f (ps ++ [p]) = content f ps ++ gap ++ (p.text f).toList := by
  rw [content, List.foldl_append, List.foldl_cons, List.foldl_nil, Pen.put]
  split
  · exact ⟨[' '], Or.inr rfl, by simp [content]⟩
  · exact ⟨[], Or.inl rfl, by simp [content]⟩

namespace Layout

/-- The characters of the line under way. -/
def underWay (f : Format) (l : Layout) : List Char := Line.content f l.pending.reverse

/-- All characters so far, without margins and ends of lines. -/
def written (f : Format) (l : Layout) : List Char :=
  l.lines.reverse.flatMap (fun line => (line.text f).toList) ++ l.underWay f

theorem written_flush (f : Format) (l : Layout) (ending : Ending) :
    (l.flush ending).written f = l.written f ++ Line.tail f (l.underWay f) ending := by
  have hnone : (l.flush ending).underWay f = [] := rfl
  rw [written, hnone, flush, List.append_nil, List.reverse_cons, List.flatMap_append,
    List.flatMap_singleton, Line.text, String.toList_ofList, written, List.append_assoc]
  rfl

theorem flatMap_finish (f : Format) (l : Layout) :
    l.finish.flatMap (fun line => (line.text f).toList) = l.written f := by
  have hflush := (written_flush f l .bare).trans (List.append_nil _)
  rw [← hflush, written]
  exact (List.append_nil _).symm

end Layout

section

/-! ## Texts without whitespace -/

variable (white : Char → Bool)

/-- The characters that are not white. -/
def sift (cs : List Char) : List Char := cs.filter (!white ·)

variable {white}

@[simp] theorem sift_nil : sift white [] = [] := rfl

@[simp] theorem sift_append (cs ds : List Char) :
    sift white (cs ++ ds) = sift white cs ++ sift white ds :=
  List.filter_append ..

theorem sift_cons_of_white {c : Char} (h : white c = true) (cs : List Char) :
    sift white (c :: cs) = sift white cs :=
  List.filter_cons_of_neg (by simp [h])

theorem sift_flatMap {α : Type} (f : α → List Char) (xs : List α) :
    sift white (xs.flatMap f) = xs.flatMap fun x => sift white (f x) :=
  List.filter_flatMap

theorem sift_eq_nil {cs : List Char} (h : ∀ c ∈ cs, white c = true) : sift white cs = [] := by
  rw [sift, List.filter_eq_nil_iff]
  intro c hc
  simp [h c hc]

variable (hblank : white ' ' = true)
include hblank

theorem sift_blank : sift white " ".toList = [] := sift_cons_of_white hblank []

theorem sift_behind (f : Format) (mark : String) :
    sift white (f.behind mark).toList = sift white mark.toList := by
  cases f with
  | compact => rfl
  | pretty =>
    rw [Format.behind, String.toList_append, sift_append, sift_blank hblank, List.append_nil]

theorem sift_around (f : Format) (mark : String) :
    sift white (f.around mark).toList = sift white mark.toList := by
  cases f with
  | compact => rfl
  | pretty =>
    rw [Format.around, String.toList_append, String.toList_append, sift_append, sift_append,
      sift_blank hblank, List.append_nil, List.nil_append]

/-! ## From call to call -/

theorem sift_print (f : Format) (format : String) (args : List String) :
    sift white ((Piece.print format args).text f).toList =
      sift white (Piece.print format args).fragment.toList := by
  have hargs : sift white (String.join (args.map (f.behind "," ++ ·))).toList =
      sift white (String.join (args.map ("," ++ ·))).toList := by
    simp only [String.toList_join, List.flatMap_map, sift_flatMap, String.toList_append,
      sift_append, sift_behind hblank]
  show sift white ("printf(\"" ++ format ++ "\"" ++ _ ++ ")").toList =
    sift white ("printf(\"" ++ format ++ "\"" ++ _ ++ ")").toList
  simp only [String.toList_append, sift_append, hargs]

theorem sift_read (f : Format) (target : String) :
    sift white ((Piece.read target).text f).toList =
      sift white (Piece.read target).fragment.toList := by
  have hopen : "scanf(\"%d\",&".toList = "scanf(\"%d\"".toList ++ ",".toList ++ "&".toList := by
    decide
  show sift white ("scanf(\"%d\"" ++ f.behind "," ++ "&" ++ target ++ ")").toList =
    sift white ("scanf(\"%d\",&" ++ target ++ ")").toList
  simp only [hopen, String.toList_append, sift_append, sift_behind hblank]

theorem sift_loop (f : Format) (counter bound : String) (limit : Option String) :
    sift white ((Piece.loop counter bound limit).text f).toList =
      sift white (Piece.loop counter bound limit).fragment.toList := by
  have hopen : "for(int ".toList = "for".toList ++ "".toList ++ "(int ".toList := by decide
  have hzero : "=0".toList = "=".toList ++ "0".toList := by decide
  have hnone : sift white "".toList = [] := rfl
  rw [Piece.text]
  cases limit with
  | none =>
    show _ = sift white ("for(int " ++ counter ++ "=0" ++ ";" ++ counter ++ "<" ++ bound ++ ";" ++
      counter ++ "++)").toList
    rw [loopHeader_none]
    simp only [hopen, hzero, String.toList_append, sift_append, sift_behind hblank,
      sift_around hblank, hnone, List.nil_append, List.append_assoc]
  | some l =>
    show _ = sift white ("for(int " ++ counter ++ "=0" ++ "," ++ l ++ "=" ++ bound ++ ";" ++
      counter ++ "<" ++ l ++ ";" ++ counter ++ "++)").toList
    rw [loopHeader_some]
    simp only [hopen, hzero, String.toList_append, sift_append, sift_behind hblank,
      sift_around hblank, List.append_assoc]

/-- A format spaces a piece and changes nothing else in it. -/
theorem sift_piece (f : Format) (p : Piece) :
    sift white (p.text f).toList = sift white p.fragment.toList := by
  cases p with
  | token t => rfl
  | print format args => exact sift_print hblank f format args
  | read target => exact sift_read hblank f target
  | loop counter bound limit => exact sift_loop hblank f counter bound limit

theorem sift_opening (f : Format) (content : List Char) :
    sift white (Line.tail f content .opening) = sift white ['\x7b'] := by
  rw [Line.tail]
  split
  · exact sift_cons_of_white hblank _
  · rfl

/-- A call adds its fragment behind all that is there. -/
theorem Layout.sift_written_put (f : Format) (l : Layout) (item : Item) :
    sift white ((l.put item).written f) =
      sift white (l.written f) ++ sift white item.fragment.toList := by
  cases item with
  | piece p =>
    obtain ⟨gap, hgap, hcontent⟩ := Line.content_concat f l.pending.reverse p
    have hwhite : sift white gap = [] := by
      rcases hgap with rfl | rfl
      · rfl
      · exact sift_blank hblank
    have hline : (l.put (.piece p)).underWay f = l.underWay f ++ gap ++ (p.text f).toList := by
      rw [underWay, put, List.reverse_cons, hcontent]
      rfl
    have hlines : (l.put (.piece p)).lines = l.lines := rfl
    have hfragment : sift white (p.text f).toList = sift white (Item.piece p).fragment.toList :=
      sift_piece hblank f p
    rw [written, hline, hlines, written]
    simp only [sift_append, hwhite, hfragment, List.nil_append, List.append_assoc]
  | endStatement =>
    rw [put, written_flush, sift_append]
    rfl
  | beginBlock =>
    have hput : (l.put .beginBlock).written f = (l.flush .opening).written f := rfl
    rw [hput, written_flush, sift_append, sift_opening hblank]
    rfl
  | endBlock =>
    have hbare : ({ l.flush .bare with depth := l.depth - 1 } : Layout).written f = l.written f :=
      (written_flush f l .bare).trans (List.append_nil _)
    rw [put, written_flush, hbare, sift_append]
    rfl

theorem Layout.sift_written_foldl (f : Format) (l : Layout) (items : List Item) :
    sift white ((items.foldl put l).written f) =
      sift white (l.written f) ++ sift white (items.flatMap (·.fragment.toList)) := by
  induction items generalizing l with
  | nil => simp
  | cons item items ih =>
    rw [List.foldl_cons, ih, sift_written_put hblank, List.flatMap_cons, sift_append,
      List.append_assoc]

/-! ## The whole text -/

variable (hnewline : white '\n' = true)
include hnewline

theorem sift_prettyLine (depth : Nat) (text : String) :
    sift white (prettyLine depth text).toList = sift white text.toList := by
  have hmargin : sift white (indentation (depth + 1)).toList = [] := by
    refine sift_eq_nil fun c hc => ?_
    rw [indentation, String.toList_ofList] at hc
    rw [List.eq_of_mem_replicate hc, hblank]
  have hend : sift white "\n".toList = [] := sift_cons_of_white hnewline []
  rw [prettyLine]
  simp only [String.toList_append, sift_append, hmargin, hend, List.append_nil, List.nil_append]

/-- A line is set in and ended, or left out if there is nothing on it. -/
theorem sift_lineChars (f : Format) (l : Line) :
    sift white (lineChars f l) = sift white (l.text f).toList := by
  cases f with
  | compact => rfl
  | pretty =>
    rw [lineChars]
    split
    · rename_i hempty
      rw [hempty]
      rfl
    · exact sift_prettyLine hblank hnewline _ _

/-- What a format adds to the top of the text, to the declarations and to the lines. -/
theorem sift_render (f : Format) (xs : List String) (lines : List Line) :
    sift white (render f xs lines).toList =
      sift white ("#include <stdio.h>".toList ++ ("int main(void)".toList ++ ("\x7b".toList ++
        (xs.flatMap (fun x => (declaration x).toList) ++
          (lines.flatMap (fun l => (l.text f).toList) ++ "\x7d".toList))))) := by
  have hline : sift white "\n".toList = [] := sift_cons_of_white hnewline []
  have hlines : sift white (lines.flatMap (lineChars f)) =
      sift white (lines.flatMap fun l => (l.text f).toList) := by
    simp only [sift_flatMap, sift_lineChars hblank hnewline]
  have hend : "\x7d\n".toList = "\x7d".toList ++ "\n".toList := by decide
  cases f with
  | compact =>
    have htop : "#include <stdio.h>\nint main(void)\x7b".toList = "#include <stdio.h>".toList ++
        ("\n".toList ++ ("int main(void)".toList ++ "\x7b".toList)) := by decide
    rw [render_compact]
    simp only [String.toList_append, String.toList_join, List.flatMap_map,
      flatMap_nonempty_compact, htop, hend, sift_append, hline, hlines, List.append_assoc,
      List.nil_append, List.append_nil]
  | pretty =>
    have htop : "#include <stdio.h>\n\nint main(void) \x7b\n".toList =
        "#include <stdio.h>".toList ++ ("\n".toList ++ ("\n".toList ++
          ("int main(void)".toList ++ (" ".toList ++ ("\x7b".toList ++ "\n".toList))))) := by decide
    have hgap : sift white (if xs ≠ [] ∧ nonempty .pretty lines ≠ [] then "\n" else "").toList =
        [] := by
      split
      · exact hline
      · rfl
    have hxs : sift white (xs.flatMap fun x => (prettyLine 0 (declaration x)).toList) =
        sift white (xs.flatMap fun x => (declaration x).toList) := by
      simp only [sift_flatMap, sift_prettyLine hblank hnewline]
    rw [render_pretty]
    simp only [String.toList_append, String.toList_join, List.flatMap_map,
      flatMap_nonempty_pretty, htop, hend, sift_append, hline, sift_blank hblank, hgap, hxs,
      hlines, List.append_assoc, List.nil_append, List.append_nil]

/-- Formats differ in whitespace only, whatever the calls are. Without the characters of a
class that the blank and the newline belong to, the text that calls lead to is that of its
fragments, each in its place: the top of the text, the declarations, what each call adds,
and the closing brace. Whether blocks are balanced is a matter of margins and so makes no
difference here. -/
theorem render_sifted (declarations : List String) (items : List Item) :
    (∀ f, sift white (render f declarations (Layout.ofItems items).finish).toList =
      sift white ((fragmentsOf declarations items).flatMap String.toList)) ∧
    sift white (render .pretty declarations (Layout.ofItems items).finish).toList =
      sift white (render .compact declarations (Layout.ofItems items).finish).toList := by
  have hrender (f : Format) :
      sift white (render f declarations (Layout.ofItems items).finish).toList =
        sift white ((fragmentsOf declarations items).flatMap String.toList) := by
    have hempty : sift white (Layout.written f {}) = [] := rfl
    have hitems : sift white ((Layout.ofItems items).written f) =
        sift white (items.flatMap (·.fragment.toList)) := by
      rw [Layout.ofItems, Layout.sift_written_foldl hblank, hempty, List.nil_append]
    rw [sift_render hblank hnewline, Layout.flatMap_finish, fragmentsOf]
    simp only [sift_append, hitems, List.flatMap_append, List.flatMap_cons, List.flatMap_nil,
      List.flatMap_map, List.append_assoc, List.append_nil]
  exact ⟨hrender, by rw [hrender, hrender]⟩

end

/-- Empty lines, a nested block, a text with blanks of its own and names without characters. -/
theorem render_sifted_blocks :
    Char.isWhitespace ' ' = true ∧ Char.isWhitespace '\n' = true ∧
    ∀ f, String.ofList (sift Char.isWhitespace (render f ["a", "n"] (Layout.ofItems
      [.endStatement, .piece (.loop "i" "a" (some "n")), .beginBlock, .beginBlock,
        .piece (.print "%d  \\n" ["a", "i"]), .endStatement, .endBlock,
        .piece (.loop "j" "9" none), .beginBlock, .endBlock, .piece (.read "a"), .endStatement,
        .endBlock, .piece (.token (.id "")), .piece (.token .comma), .piece (.token (.unknown "?")),
        .piece (.token .eof), .piece (.token (.str "x y"))]).finish).toList) =
      "#include<stdio.h>intmain(void)\x7binta;intn;;for(inti=0,n=a;i<n;i++)\x7b\x7b" ++
        "printf(\"%d\\n\",a,i);\x7dfor(intj=0;j<9;j++)\x7b\x7dscanf(\"%d\",&a);\x7d" ++
        ",?EOF\"xy\"\x7d" := by
  refine ⟨by decide, by decide, fun f => ?_⟩
  rw [(render_sifted (by decide) (by decide) _ _).1 f]
  decide +kernel

end BareBones.C
