import BareBones.Proofs.C.Layouts
import BareBones.Proofs.C.Whitespace

/-!
Compact lines cut apart again. The compact format puts a blank between two tokens when
the last character so far and the first new one would run together, and looks at nothing
else. That is enough for tokens in any order: a line of them is cut back into exactly
these tokens by a reader that takes the longest fragment each time (`fragments_underWay`).
-/

namespace BareBones

open C

namespace C

/-! ## The reader -/

/-- What may be read where no word and no text begins, the longer ones first. The
openings of comments stand among them. -/
def symbols : List String :=
  ["==", "!=", "<=", ">=", "&&", "||", "++", "--", "->", "<<", ">>", "+=", "-=", "*=", "/=",
    "%=", "//", "/*", "(", ")", "[", "]", "\x7b", "\x7d", ";", ",", "=", "+", "-", "*", "/",
    "%", "!", "<", ">"]

/-- The longest fragment at the front of a text that begins with `c`, and what is left. A
character that begins none is a fragment of its own. -/
def cut (c : Char) (cs : List Char) : String × List Char :=
  if c = '"' then
    match quoted? cs with
    | some (inside, rest) => (String.ofList ('"' :: (inside ++ ['"'])), rest)
    | none => (String.singleton c, cs)
  else if isWordChar c then
    (String.ofList (c :: cs.takeWhile isWordChar), cs.dropWhile isWordChar)
  else
    match symbols.find? fun m => m.toList.isPrefixOf (c :: cs) with
    | some m => (m, cs.drop (m.toList.length - 1))
    | none => (String.singleton c, cs)

theorem cut_length (c : Char) (cs : List Char) : (cut c cs).2.length ≤ cs.length := by
  fun_cases cut c cs with
  | case1 _ inside rest h => exact quoted?_length h
  | case2 => exact Nat.le_refl _
  | case3 => exact (List.dropWhile_sublist _).length_le
  | case4 => simp
  | case5 => exact Nat.le_refl _

/-- A text cut into words, texts and symbols. -/
def fragments : List Char → List String
  | [] => []
  | c :: cs => if isBlank c then fragments cs else (cut c cs).1 :: fragments (cut c cs).2
termination_by cs => cs.length
decreasing_by
  · simp
  · have := cut_length c cs
    simp only [List.length_cons]
    omega

theorem fragments_nil : fragments [] = [] := by rw [fragments]

theorem fragments_blank {c : Char} (h : isBlank c = true) (cs : List Char) :
    fragments (c :: cs) = fragments cs := by
  rw [fragments, if_pos h]

theorem fragments_cut {c : Char} (h : isBlank c = false) (cs : List Char) :
    fragments (c :: cs) = (cut c cs).1 :: fragments (cut c cs).2 := by
  rw [fragments, if_neg (by simp [h])]

/-! ## One fragment -/

theorem isWordChar_eq_false_of_apart {a c : Char} (ha : isWordChar a = true)
    (h : runTogether a c = false) : isWordChar c = false := by
  rw [Bool.eq_false_iff]
  intro hc
  simp [runTogether, ha, hc] at h

theorem fragments_word {x : String} (hne : x.toList ≠ [])
    (hx : ∀ c ∈ x.toList, isWordChar c = true) {rest : List Char}
    (hr : ∀ c ∈ rest.head?, isWordChar c = false) :
    fragments (x.toList ++ rest) = x :: fragments rest := by
  obtain ⟨c, cs, hxc⟩ := List.exists_cons_of_ne_nil hne
  rw [hxc] at hx
  obtain ⟨hc, hcs⟩ := List.forall_mem_cons.mp hx
  obtain ⟨htake, hdrop⟩ := takeWhile_append_of_head hcs hr
  have hcut : cut c (cs ++ rest) = (x, rest) := by
    rw [cut, if_neg (ne_quote_of_isWordChar hc), if_pos hc, htake, hdrop, ← hxc,
      String.ofList_toList]
  rw [hxc, List.cons_append, fragments_cut (isBlank_eq_false_of_isWordChar hc), hcut]

theorem fragments_text {inside : String} (h : Quotable inside.toList) (rest : List Char) :
    fragments (("\"" ++ inside ++ "\"").toList ++ rest) =
      ("\"" ++ inside ++ "\"") :: fragments rest := by
  have hchars : ("\"" ++ inside ++ "\"").toList = '"' :: (inside.toList ++ ['"']) := by simp
  have hcut : cut '"' (inside.toList ++ '"' :: rest) = ("\"" ++ inside ++ "\"", rest) := by
    rw [cut, if_pos rfl, quoted?_quotable h]
    simp only [← hchars, String.ofList_toList]
  rw [hchars, List.cons_append, List.append_assoc, List.singleton_append,
    fragments_cut (by decide), hcut]

theorem symbols_pairwise :
    symbols.Pairwise fun m n => n.toList.length ≤ m.toList.length ∧ n.toList ≠ m.toList := by
  decide +kernel

theorem symbols_chars {m : String} (hm : m ∈ symbols) : m.toList ≠ [] ∧
    ∀ c ∈ m.toList, isBlank c = false ∧ isWordChar c = false ∧ c ≠ '"' := by
  have hall : ∀ m ∈ symbols, m.toList ≠ [] ∧
      (m.toList.all fun c => !isBlank c && !isWordChar c && c != '"') = true := by decide +kernel
  obtain ⟨hne, hchars⟩ := hall m hm
  refine ⟨hne, fun c hc => ?_⟩
  simpa [and_assoc] using List.all_eq_true.mp hchars c hc

/-- What makes a longer symbol of a symbol runs together with its last character. -/
theorem runTogether_of_prefix {m n : String} (hm : m ∈ symbols) (hn : n ∈ symbols) {a c : Char}
    (ha : a ∈ m.toList.getLast?) (hpre : m.toList ++ [c] <+: n.toList) :
    runTogether a c = true := by
  have hall : ∀ m ∈ symbols, ∀ n ∈ symbols, m.toList.isPrefixOf n.toList = true →
      (m.toList.getLast?.all fun a =>
        (n.toList.drop m.toList.length).head?.all (runTogether a)) = true := by decide +kernel
  obtain ⟨rest, hrest⟩ := hpre
  have hprefix : m.toList.isPrefixOf n.toList = true := by
    rw [List.isPrefixOf_iff_prefix, ← hrest, List.append_assoc]
    exact List.prefix_append _ _
  have hnext : (n.toList.drop m.toList.length).head? = some c := by simp [← hrest]
  have hextension := hall m hm n hn hprefix
  rwa [Option.mem_def.mp ha, hnext, Option.all_some, Option.all_some] at hextension

theorem fragments_symbol {m : String} (hm : m ∈ symbols) {rest : List Char}
    (hr : ∀ a ∈ m.toList.getLast?, ∀ c ∈ rest.head?, runTogether a c = false) :
    fragments (m.toList ++ rest) = m :: fragments rest := by
  obtain ⟨hne, hchars⟩ := symbols_chars hm
  have hlast := List.getLast?_eq_some_getLast hne
  have hfind : symbols.find? (fun n => n.toList.isPrefixOf (m.toList ++ rest)) = some m := by
    refine find?_longest symbols_pairwise hm fun c hc n hn hpre => ?_
    have h := runTogether_of_prefix hm hn hlast hpre
    rw [hr _ hlast c hc] at h
    cases h
  obtain ⟨c, cs, hmc⟩ := List.exists_cons_of_ne_nil hne
  obtain ⟨hblank, hword, hquote⟩ := hchars c (by simp [hmc])
  have hcut : cut c (cs ++ rest) = (m, rest) := by
    rw [hmc, List.cons_append] at hfind
    rw [cut, if_neg hquote, if_neg (by simp [hword]), hfind]
    simp [hmc]
  rw [hmc, List.cons_append, fragments_cut hblank, hcut]

end C

/-! ## Tokens -/

namespace Token

/-- The token has the characters of its class and is none that only the end of a line, the
end of the input or a fault leads to. A name may begin with a digit. -/
def Emittable : Token → Prop
  | id x => x.toList ≠ [] ∧ ∀ c ∈ x.toList, c.isAlphanum = true
  | number d => d.toList ≠ [] ∧ ∀ c ∈ d.toList, c.isDigit = true
  | str text => Quotable text.toList
  | eof | newline | unknown _ => False
  | _ => True

theorem isWordChar_of_emittable {t : Token} (ht : t.Emittable) (hr : t.isRun = true) :
    t.toC.toList ≠ [] ∧ ∀ c ∈ t.toC.toList, isWordChar c = true := by
  cases t with
  | id x => exact ⟨ht.1, fun c hc => by simp [isWordChar, ht.2 c hc]⟩
  | number d => exact ⟨ht.1, fun c hc => isWordChar_of_isDigit (ht.2 c hc)⟩
  | keyword k => exact ⟨toC_ne_nil k.isWord_toC, k.isWord_toC.all_isWordChar⟩
  | _ => cases hr

theorem toC_mem_symbols {t : Token} (ht : t.Emittable) (hr : t.isRun = false) :
    (∃ text, t = .str text) ∨ t.toC ∈ symbols := by
  cases t with
  | id | number | keyword => cases hr
  | eof | newline | unknown => exact ht.elim
  | str text => exact Or.inl ⟨text, rfl⟩
  | punctuation m => cases m <;> exact Or.inr (by decide)
  | operator op => rcases op with _ | _ | op | op <;> (try cases op) <;> exact Or.inr (by decide)

theorem toC_ne_nil_of_emittable {t : Token} (ht : t.Emittable) : t.toC.toList ≠ [] := by
  by_cases hr : t.isRun = true
  · exact (isWordChar_of_emittable ht hr).1
  · rcases toC_mem_symbols ht (by simpa using hr) with ⟨text, rfl⟩ | hm
    · simp [toC]
    · exact (symbols_chars hm).1

/-- A token is cut off whole if its last character does not run into the next one. -/
theorem fragments_toC {t : Token} (ht : t.Emittable) {rest : List Char}
    (hrest : ∀ a ∈ t.toC.toList.getLast?, ∀ c ∈ rest.head?, runTogether a c = false) :
    fragments (t.toC.toList ++ rest) = t.toC :: fragments rest := by
  by_cases hr : t.isRun = true
  · obtain ⟨hne, hword⟩ := isWordChar_of_emittable ht hr
    refine fragments_word hne hword fun c hc => ?_
    exact isWordChar_eq_false_of_apart (hword _ (List.getLast_mem hne))
      (hrest _ (List.getLast?_eq_some_getLast hne) c hc)
  · rcases toC_mem_symbols ht (by simpa using hr) with ⟨text, rfl⟩ | hm
    · exact fragments_text ht rest
    · exact fragments_symbol hm hrest

end Token

/-! ## Tokens of a line -/

namespace C

theorem runTogether_blank (a : Char) : runTogether a ' ' = false := by
  have hword : isWordChar ' ' = false := by decide
  simp [runTogether, hword]

/-- Tokens put behind what is written are cut apart again, and the first of them does not
run together with what stands before it. -/
theorem Pen.fragments_foldl_put {ts : List Token} (hts : ∀ t ∈ ts, t.Emittable) (pen : Pen) :
    ∃ rest,
      ((ts.map Piece.token).foldl (put .compact) pen).written.reverse =
        pen.written.reverse ++ rest ∧
      (∀ a ∈ pen.written.head?, ∀ c ∈ rest.head?, runTogether a c = false) ∧
      fragments rest = ts.map Token.toC := by
  induction ts generalizing pen with
  | nil => exact ⟨[], by simp, by simp, fragments_nil⟩
  | cons t ts ih =>
    obtain ⟨ht, hts⟩ := List.forall_mem_cons.mp hts
    have hne := Token.toC_ne_nil_of_emittable ht
    obtain ⟨c, cs, htc⟩ := List.exists_cons_of_ne_nil hne
    obtain ⟨rest, hwritten, hapart, hrest⟩ := ih hts (pen.put .compact (.token t))
    have hhead : (pen.put .compact (.token t)).written.head? = t.toC.toList.getLast? := by
      rw [put, Piece.text, List.head?_append_of_ne_nil _ (by simpa using hne), List.head?_reverse]
    rw [hhead] at hapart
    have hfragments : fragments (t.toC.toList ++ rest) = (t :: ts).map Token.toC := by
      rw [Token.fragments_toC ht hapart, hrest, List.map_cons]
    -- what parts `t` from the characters before it is the blank, or the verdict on the two
    -- characters that meet
    cases hgap : pen.gap .compact (.token t) with
    | true =>
      refine ⟨' ' :: (t.toC.toList ++ rest), ?_, ?_, ?_⟩
      · rw [List.map_cons, List.foldl_cons, hwritten, put, hgap, Piece.text]
        simp
      · rintro a - _ ⟨⟩
        exact runTogether_blank a
      · rw [fragments_blank (by decide), hfragments]
    | false =>
      refine ⟨t.toC.toList ++ rest, ?_, ?_, hfragments⟩
      · rw [List.map_cons, List.foldl_cons, hwritten, put, hgap, Piece.text]
        simp
      · intro a ha d hd
        have hd : c = d := by simpa [htc] using hd
        have ha : pen.written.head? = some a := ha
        subst hd
        simpa [gap, Piece.text, ha, htc] using hgap

/-- The compact format keeps tokens apart. On a line of its own, a sequence of tokens is
laid out so that the line is cut back into their spellings, whatever their order is. -/
theorem fragments_underWay {ts : List Token} (hts : ∀ t ∈ ts, t.Emittable) {l : Layout}
    (hl : l.pending = []) :
    fragments (((tokenItems ts).foldl Layout.put l).underWay .compact) = ts.map Token.toC := by
  obtain ⟨rest, hwritten, -, hrest⟩ := Pen.fragments_foldl_put hts {}
  have hline : ((tokenItems ts).foldl Layout.put l).underWay .compact = rest := by
    rw [tokenItems_eq, Layout.foldl_put_pieces, Layout.underWay, Line.content, hl,
      List.append_nil, List.reverse_reverse, hwritten]
    rfl
  rw [hline, hrest]

/-- Operators, words and texts, most of them beside one that they would run together with. -/
def crowded : List Token :=
  [.arithmetic .sub, .arithmetic .sub, .comparison .greater, .assign, .arithmetic .div,
    .arithmetic .mul, .arithmetic .div, .arithmetic .div, .comparison .less,
    .comparison .lessOrEqual, .assign, .comparison .equal, .not, .comparison .notEqual,
    .comparison .and, .comparison .and, .id "9a", .number "07", .keyword .let_, .openParen,
    .str "a\\\" b", .str "", .id "x"]

theorem crowded_emittable : ∀ t ∈ crowded, t.Emittable := by
  have hname : "9a".toList ≠ [] ∧ ∀ c ∈ "9a".toList, c.isAlphanum = true :=
    ⟨by decide, List.all_eq_true.mp (by decide)⟩
  have hnumber : "07".toList ≠ [] ∧ ∀ c ∈ "07".toList, c.isDigit = true :=
    ⟨by decide, List.all_eq_true.mp (by decide)⟩
  have htext : Quotable "a\\\" b".toList :=
    .plain (by decide) (by decide) (by decide) (.escape (by decide)
      (.plain (by decide) (by decide) (by decide)
        (.plain (by decide) (by decide) (by decide) .nil)))
  have hx : "x".toList ≠ [] ∧ ∀ c ∈ "x".toList, c.isAlphanum = true :=
    ⟨by decide, List.all_eq_true.mp (by decide)⟩
  simp only [crowded, List.forall_mem_cons, Token.Emittable, true_and]
  exact ⟨hname, hnumber, htext, .nil, hx, by simp⟩

theorem fragments_underWay_crowded :
    (∀ t ∈ crowded, t.Emittable) ∧ ({} : Layout).pending = [] ∧
    fragments (((tokenItems crowded).foldl Layout.put {}).underWay .compact) =
      ["-", "-", ">", "=", "/", "*", "/", "/", "<", "<=", "=", "==", "!", "!=", "&&", "&&", "9a",
        "07", "int", "(", "\"a\\\" b\"", "\"\"", "x"] :=
  ⟨crowded_emittable, rfl, fragments_underWay crowded_emittable rfl⟩

end C

end BareBones
