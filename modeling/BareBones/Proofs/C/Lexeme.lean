import Mathlib.Data.List.Chain
import BareBones.C.Line
import BareBones.Proofs.Scan

/-!
C text read as tokens, by maximal munch. Each kind of token has a condition on
the character behind it under which it is read back whole (`lex_spelling`), and a
text that keeps this condition between neighbours is read back as the tokens it
was written from (`lex_spellAll`).
-/

namespace BareBones.C

inductive Lexeme where
  | word (name : String)
  | number (digits : String)
  | text (inside : String)
  | mark (symbol : String)
  /-- A character that begins no token. -/
  | stray (c : Char)
deriving DecidableEq

/-- The punctuators of C, the longer ones first. The openings of comments stand
among them: a text in which one is read has lost the tokens behind it. -/
def marks : List String :=
  ["%:%:", "...", "<<=", ">>=", "->", "++", "--", "<<", ">>", "<=", ">=", "==", "!=", "&&",
    "||", "*=", "/=", "%=", "+=", "-=", "&=", "^=", "|=", "##", "::", "<:", ":>", "<%", "%>",
    "%:", "//", "/*", "[", "]", "(", ")", "\x7b", "\x7d", ".", "&", "*", "+", "-", "~", "!",
    "/", "%", "<", ">", "^", "|", "?", ":", ";", "=", ",", "#"]

def isBlank (c : Char) : Bool :=
  c = ' ' || c = '\t' || c = '\n' || c = '\r' || c = '\x0b' || c = '\x0c'

/-! ## The reader -/

/-- Splits behind the quote that ends a text. A backslash takes the character
behind it along, and a text ends on the line that it begins on. -/
def quoted? : List Char → Option (List Char × List Char)
  | [] => none
  | '\\' :: c :: cs => (quoted? cs).map fun s => ('\\' :: c :: s.1, s.2)
  | c :: cs =>
    if c = '"' then some ([], cs)
    else if c = '\n' then none
    else (quoted? cs).map fun s => (c :: s.1, s.2)

/-- Splits where a number ends. A sign belongs to it behind the mark of an
exponent only. -/
def splitNumber (before : Char) : List Char → List Char × List Char
  | [] => ([], [])
  | c :: cs =>
    if isWordChar c || c = '.' || (c = '+' || c = '-') && "eEpP".toList.contains before then
      (c :: (splitNumber c cs).1, (splitNumber c cs).2)
    else ([], c :: cs)

def beginsNumber (c : Char) (cs : List Char) : Bool :=
  c.isDigit || c = '.' && cs.head?.any Char.isDigit

/-- The first token of a text that begins with `c`, and what is left. -/
def munch (c : Char) (cs : List Char) : Lexeme × List Char :=
  if c = '"' then
    match quoted? cs with
    | some (inside, rest) => (.text (String.ofList inside), rest)
    | none => (.stray c, cs)
  else if beginsNumber c cs then
    (.number (String.ofList (c :: (splitNumber c cs).1)), (splitNumber c cs).2)
  else if isWordChar c then
    (.word (String.ofList (c :: cs.takeWhile isWordChar)), cs.dropWhile isWordChar)
  else
    match marks.find? fun m => m.toList.isPrefixOf (c :: cs) with
    | some m => (.mark m, cs.drop (m.toList.length - 1))
    | none => (.stray c, cs)

theorem quoted?_length {cs inside rest : List Char} (h : quoted? cs = some (inside, rest)) :
    rest.length ≤ cs.length := by
  fun_induction quoted? cs generalizing inside rest with
  | case1 => cases h
  | case2 c cs ih =>
    obtain ⟨⟨inside, rest⟩, hs, he⟩ := Option.map_eq_some_iff.mp h
    have hlen := ih hs
    cases he
    simp only [List.length_cons]
    omega
  | case3 cs => cases h; simp
  | case4 c cs => cases h
  | case5 c cs _ _ _ ih =>
    obtain ⟨⟨inside, rest⟩, hs, he⟩ := Option.map_eq_some_iff.mp h
    have hlen := ih hs
    cases he
    simp only [List.length_cons]
    omega

theorem splitNumber_length (before : Char) (cs : List Char) :
    (splitNumber before cs).2.length ≤ cs.length := by
  fun_induction splitNumber before cs with
  | case1 => simp
  | case2 before c cs _ ih => simp only [List.length_cons]; omega
  | case3 => simp

theorem munch_length (c : Char) (cs : List Char) : (munch c cs).2.length ≤ cs.length := by
  fun_cases munch c cs with
  | case1 _ inside rest h => exact quoted?_length h
  | case2 => exact Nat.le_refl _
  | case3 => exact splitNumber_length c cs
  | case4 => exact (List.dropWhile_sublist _).length_le
  | case5 => simp
  | case6 => exact Nat.le_refl _

/-- All tokens of a text. -/
def lex : List Char → List Lexeme
  | [] => []
  | c :: cs => if isBlank c then lex cs else (munch c cs).1 :: lex (munch c cs).2
termination_by cs => cs.length
decreasing_by
  · simp
  · have := munch_length c cs
    simp only [List.length_cons]
    omega

/-! ## One token -/

/-- A letter or underscore, followed by letters, digits and underscores. -/
def IsWord (x : String) : Prop :=
  ∃ c cs, x.toList = c :: cs ∧ isWordChar c = true ∧ c.isDigit = false ∧
    ∀ d ∈ cs, isWordChar d = true

theorem IsWord.of_all {x : String} {c : Char} {cs : List Char} (hx : x.toList = c :: cs)
    (h : (isWordChar c && !c.isDigit && cs.all isWordChar) = true) : IsWord x := by
  simp only [Bool.and_eq_true, Bool.not_eq_true', List.all_eq_true] at h
  exact ⟨c, cs, hx, h.1.1, h.1.2, h.2⟩

theorem IsWord.all_isWordChar {x : String} (h : IsWord x) :
    ∀ c ∈ x.toList, isWordChar c = true := by
  obtain ⟨c, cs, hx, hc, -, hcs⟩ := h
  rw [hx]
  exact List.forall_mem_cons.mpr ⟨hc, hcs⟩

namespace Lexeme

def spelling : Lexeme → List Char
  | word x => x.toList
  | number d => d.toList
  | text inside => '"' :: (inside.toList ++ ['"'])
  | mark m => m.toList
  | stray c => [c]

def WellFormed : Lexeme → Prop
  | word x => IsWord x
  | number d => d.toList ≠ [] ∧ ∀ c ∈ d.toList, c.isDigit = true
  | text inside => Quotable inside.toList
  | mark m => m ∈ marks
  | stray _ => False

/-- `c` behind the token is no part of it. -/
def endsBefore : Lexeme → Char → Bool
  | word _, c => !isWordChar c
  | number _, c => !isWordChar c && c ≠ '.'
  | text _, _ => true
  | mark m, c =>
    marks.all (fun n => !(m.toList ++ [c]).isPrefixOf n.toList) && !(m = "." && c.isDigit)
  | stray _, _ => true

end Lexeme

theorem lex_nil : lex [] = [] := by rw [lex]

@[simp] theorem lex_blank {c : Char} (h : isBlank c = true) (cs : List Char) :
    lex (c :: cs) = lex cs := by
  rw [lex, if_pos h]

theorem lex_munch {c : Char} (h : isBlank c = false) (cs : List Char) :
    lex (c :: cs) = (munch c cs).1 :: lex (munch c cs).2 := by
  rw [lex, if_neg (by simp [h])]

theorem isBlank_eq_false_of_isWordChar {c : Char} (h : isWordChar c = true) :
    isBlank c = false := by
  rw [Bool.eq_false_iff]
  intro hb
  simp only [isBlank, Bool.or_eq_true, decide_eq_true_eq] at hb
  rcases hb with ((((rfl | rfl) | rfl) | rfl) | rfl) | rfl <;> revert h <;> decide

theorem isWordChar_of_isDigit {c : Char} (h : c.isDigit = true) : isWordChar c = true := by
  simp [isWordChar, Char.isAlphanum, h]

theorem ne_quote_of_isWordChar {c : Char} (h : isWordChar c = true) : c ≠ '"' := by
  rintro rfl
  revert h
  decide

theorem lex_word {x : String} (hx : IsWord x) {rest : List Char}
    (hr : ∀ c ∈ rest.head?, isWordChar c = false) :
    lex (x.toList ++ rest) = .word x :: lex rest := by
  obtain ⟨c, cs, hxc, hc, hd, hcs⟩ := hx
  obtain ⟨ht, hdrop⟩ := takeWhile_append_of_head hcs hr
  have hdot : c ≠ '.' := by
    rintro rfl
    revert hc
    decide
  have hnum : beginsNumber c (cs ++ rest) = false := by simp [beginsNumber, hd, hdot]
  have hm : munch c (cs ++ rest) = (.word x, rest) := by
    rw [munch, if_neg (ne_quote_of_isWordChar hc), if_neg (by simp [hnum]), if_pos hc, ht, hdrop,
      ← hxc, String.ofList_toList]
  rw [hxc, List.cons_append, lex_munch (isBlank_eq_false_of_isWordChar hc), hm]

theorem splitNumber_digits {before : Char} {cs rest : List Char} (hb : before.isDigit = true)
    (hc : ∀ c ∈ cs, c.isDigit = true)
    (hr : ∀ c ∈ rest.head?, isWordChar c = false ∧ c ≠ '.') :
    splitNumber before (cs ++ rest) = (cs, rest) := by
  induction cs generalizing before with
  | nil =>
    have hexp : before ≠ 'e' ∧ before ≠ 'E' ∧ before ≠ 'p' ∧ before ≠ 'P' := by
      refine ⟨?_, ?_, ?_, ?_⟩ <;> rintro rfl <;> revert hb <;> decide
    cases rest with
    | nil => rfl
    | cons d ds =>
      obtain ⟨hw, hdot⟩ := hr d (by simp)
      rw [List.nil_append, splitNumber, if_neg]
      simp [hw, hdot, hexp]
  | cons c cs ih =>
    have hd : c.isDigit = true := hc c (by simp)
    have hcs : splitNumber c (cs ++ rest) = (cs, rest) :=
      ih hd fun e he => hc e (List.mem_cons_of_mem c he)
    rw [List.cons_append, splitNumber, if_pos (by simp [isWordChar_of_isDigit hd]), hcs]

theorem lex_number {d : String} (hne : d.toList ≠ []) (hd : ∀ c ∈ d.toList, c.isDigit = true)
    {rest : List Char} (hr : ∀ c ∈ rest.head?, isWordChar c = false ∧ c ≠ '.') :
    lex (d.toList ++ rest) = .number d :: lex rest := by
  obtain ⟨c, cs, hdc⟩ := List.exists_cons_of_ne_nil hne
  rw [hdc] at hd
  have hc : c.isDigit = true := hd c (by simp)
  have hw := isWordChar_of_isDigit hc
  have hs := splitNumber_digits hc (fun e he => hd e (List.mem_cons_of_mem c he)) hr
  have hm : munch c (cs ++ rest) = (.number d, rest) := by
    rw [munch, if_neg (ne_quote_of_isWordChar hw), if_pos (by simp [beginsNumber, hc]), hs, ← hdc,
      String.ofList_toList]
  rw [hdc, List.cons_append, lex_munch (isBlank_eq_false_of_isWordChar hw), hm]

theorem quoted?_quotable {cs : List Char} (h : Quotable cs) (rest : List Char) :
    quoted? (cs ++ '"' :: rest) = some (cs, rest) := by
  induction h with
  | nil => simp [quoted?]
  | escape _ _ ih => simp [quoted?, ih]
  | plain hb hq hn _ ih => simp [quoted?, hb, hq, hn, ih]

theorem lex_text {inside : String} (h : Quotable inside.toList) (rest : List Char) :
    lex ('"' :: (inside.toList ++ '"' :: rest)) = .text inside :: lex rest := by
  rw [lex_munch (by decide), munch, if_pos rfl, quoted?_quotable h]
  simp only [String.ofList_toList]

theorem marks_pairwise :
    marks.Pairwise fun m n => n.toList.length ≤ m.toList.length ∧ n.toList ≠ m.toList := by
  decide +kernel

theorem marks_chars {m : String} (hm : m ∈ marks) : m.toList ≠ [] ∧
    ∀ c ∈ m.toList, isBlank c = false ∧ isWordChar c = false ∧ c ≠ '"' := by
  have hall : ∀ m ∈ marks, m.toList ≠ [] ∧
      (m.toList.all fun c => !isBlank c && !isWordChar c && c != '"') = true := by decide +kernel
  obtain ⟨hne, hchars⟩ := hall m hm
  refine ⟨hne, fun c hc => ?_⟩
  simpa [and_assoc] using List.all_eq_true.mp hchars c hc

/-- The longest mark at the front of a text is found, since longer marks are
tried first. -/
theorem find?_marks {m : String} (hm : m ∈ marks) {rest : List Char}
    (hr : ∀ c ∈ rest.head?, ∀ n ∈ marks, ¬ m.toList ++ [c] <+: n.toList) :
    marks.find? (fun n => n.toList.isPrefixOf (m.toList ++ rest)) = some m :=
  find?_longest marks_pairwise hm hr

theorem lex_mark {m : String} (hm : m ∈ marks) {rest : List Char}
    (hr : ∀ c ∈ rest.head?, (Lexeme.mark m).endsBefore c = true) :
    lex (m.toList ++ rest) = .mark m :: lex rest := by
  obtain ⟨hne, hchars⟩ := marks_chars hm
  obtain ⟨c, cs, hmc⟩ := List.exists_cons_of_ne_nil hne
  obtain ⟨hblank, hword, hquote⟩ := hchars c (by simp [hmc])
  have hends : ∀ d ∈ rest.head?, (∀ n ∈ marks, ¬ m.toList ++ [d] <+: n.toList) ∧
      (m ≠ "." ∨ d.isDigit = false) := by
    intro d hd
    simpa [Lexeme.endsBefore, ← List.isPrefixOf_iff_prefix] using hr d hd
  have hfind := find?_marks hm fun d hd => (hends d hd).1
  have hnum : beginsNumber c (cs ++ rest) = false := by
    have hdigit : ∀ d ∈ m.toList, d.isDigit = false := by
      intro d hd
      rw [Bool.eq_false_iff]
      intro h
      simpa [isWordChar_of_isDigit h] using (hchars d hd).2.1
    rw [beginsNumber, hdigit c (by simp [hmc]), Bool.false_or, Bool.and_eq_false_imp]
    intro hdot
    obtain rfl : c = '.' := by simpa using hdot
    cases cs with
    | nil =>
      have hmdot : m = "." := String.toList_inj.mp (by rw [hmc]; rfl)
      cases rest with
      | nil => rfl
      | cons d ds => simpa [hmdot] using (hends d (by simp)).2
    | cons d ds => simpa using hdigit d (by simp [hmc])
  have hm' : munch c (cs ++ rest) = (.mark m, rest) := by
    rw [hmc, List.cons_append] at hfind
    rw [munch, if_neg hquote, if_neg (by simp [hnum]), if_neg (by simp [hword]), hfind]
    simp [hmc]
  rw [hmc, List.cons_append, lex_munch hblank, hm']

/-- A token is read back whole when what follows is no part of it. -/
theorem lex_spelling {l : Lexeme} (hl : l.WellFormed) {rest : List Char}
    (hr : ∀ c ∈ rest.head?, l.endsBefore c = true) :
    lex (l.spelling ++ rest) = l :: lex rest := by
  cases l with
  | word x => exact lex_word hl fun c hc => by simpa [Lexeme.endsBefore] using hr c hc
  | number d => exact lex_number hl.1 hl.2 fun c hc => by simpa [Lexeme.endsBefore] using hr c hc
  | text inside => simpa [Lexeme.spelling] using lex_text hl rest
  | mark m => exact lex_mark hl hr
  | stray c => exact hl.elim

/-! ## Neighbours -/

namespace Lexeme

theorem spelling_ne_nil {l : Lexeme} (hl : l.WellFormed) : l.spelling ≠ [] := by
  cases l with
  | word x =>
    obtain ⟨c, cs, hx, -⟩ := hl
    simp [spelling, hx]
  | number d => exact hl.1
  | text inside => simp [spelling]
  | mark m => exact (marks_chars hl).1
  | stray c => exact hl.elim

/-- A token stands on one line. -/
theorem newline_notMem_spelling {l : Lexeme} (hl : l.WellFormed) : '\n' ∉ l.spelling := by
  have hword : isWordChar '\n' = false := by decide
  cases l with
  | word x =>
    intro h
    simpa [hword] using IsWord.all_isWordChar hl _ h
  | number d =>
    intro h
    simpa [hword] using isWordChar_of_isDigit (hl.2 _ h)
  | text inside => simpa [spelling] using Quotable.newline_notMem hl
  | mark m =>
    intro h
    cases ((marks_chars hl).2 _ h).1
  | stray c => exact hl.elim

/-- Characters that no token goes on with. -/
def boundaries : List Char :=
  [' ', '"', ';', ',', '!', '(', ')', '[', ']', '\x7b', '\x7d']

theorem boundaries_not_mem_tail {m : String} (hm : m ∈ marks) {c : Char}
    (hc : c ∈ boundaries) : c ∉ m.toList.tail := by
  have hall : ∀ m ∈ marks, (m.toList.tail.all fun c => !boundaries.contains c) = true := by
    decide +kernel
  intro hmem
  simpa [hc] using List.all_eq_true.mp (hall m hm) c hmem

/-- A mark ends before a character that makes no longer mark of it, but for the dot
before a digit. -/
theorem mark_endsBefore {m : String} {c : Char}
    (hpre : ∀ n ∈ marks, ¬ m.toList ++ [c] <+: n.toList)
    (hdot : m ≠ "." ∨ c.isDigit = false) : (mark m).endsBefore c = true := by
  simpa [endsBefore, ← List.isPrefixOf_iff_prefix, hdot] using hpre

theorem endsBefore_of_mem_boundaries (l : Lexeme) (hl : l.WellFormed) {c : Char}
    (hc : c ∈ boundaries) : l.endsBefore c = true := by
  have hword : (boundaries.all fun c => !isWordChar c && c != '.') = true := by decide
  have hc' : isWordChar c = false ∧ c ≠ '.' := by
    simpa using List.all_eq_true.mp hword c hc
  cases l with
  | word x => simp [endsBefore, hc']
  | number d => simp [endsBefore, hc']
  | text inside => rfl
  | mark m =>
    have hdigit : c.isDigit = false := by
      by_contra h
      rw [isWordChar_of_isDigit (by simpa using h)] at hc'
      cases hc'.1
    refine mark_endsBefore (fun n hn hpre => ?_) (Or.inr hdigit)
    -- a longer mark would have `c` behind its first character
    obtain ⟨d, ds, hm⟩ := List.exists_cons_of_ne_nil (marks_chars hl).1
    obtain ⟨rest, hrest⟩ := hpre
    refine boundaries_not_mem_tail hn hc ?_
    simp [← hrest, hm]
  | stray c => rfl

/-- The two tokens stay apart when nothing is between them. -/
def Meets (l m : Lexeme) : Prop := m.spelling.head?.all l.endsBefore = true

instance (l m : Lexeme) : Decidable (l.Meets m) :=
  inferInstanceAs (Decidable (m.spelling.head?.all l.endsBefore = true))

theorem meets_iff {l m : Lexeme} :
    l.Meets m ↔ ∀ c ∈ m.spelling.head?, l.endsBefore c = true := by
  rw [Meets]
  cases m.spelling.head? <;> simp

theorem meets_of_mem_boundaries {l m : Lexeme} (hl : l.WellFormed)
    (hm : m.spelling.head?.all (· ∈ boundaries) = true) : l.Meets m := by
  rw [meets_iff]
  intro c hc
  rw [Option.mem_def.mp hc, Option.all_some, decide_eq_true_eq] at hm
  exact l.endsBefore_of_mem_boundaries hl hm

theorem head_mem_of_mem_head? {x : String} {c d : Char} {cs : List Char}
    (hx : x.toList = c :: cs) (hd : d ∈ x.toList.head?) : d = c := by
  simpa [hx, eq_comm] using hd

theorem not_prefix_of_isWordChar {m n : String} {c : Char} (hc : isWordChar c = true)
    (hn : n ∈ marks) : ¬ m.toList ++ [c] <+: n.toList := by
  intro hpre
  have hmem : c ∈ n.toList := hpre.subset (by simp)
  simpa [hc] using ((marks_chars hn).2 c hmem).2.1

theorem mark_meets_word {m x : String} (hx : IsWord x) : (mark m).Meets (word x) := by
  obtain ⟨c, cs, hxc, hc, hd, -⟩ := hx
  rw [meets_iff]
  intro d hmem
  obtain rfl := head_mem_of_mem_head? hxc hmem
  exact mark_endsBefore (fun n hn => not_prefix_of_isWordChar hc hn) (Or.inr hd)

theorem mark_meets_number {m d : String} (hdot : m ≠ ".")
    (hd : ∀ c ∈ d.toList, c.isDigit = true) : (mark m).Meets (number d) := by
  rw [meets_iff]
  intro c hc
  have hdigit : c.isDigit = true := hd c (List.mem_of_mem_head? hc)
  exact mark_endsBefore
    (fun n hn => not_prefix_of_isWordChar (isWordChar_of_isDigit hdigit) hn) (Or.inl hdot)

theorem mark_meets_text {m inside : String} (hm : m ∈ marks) : (mark m).Meets (text inside) :=
  meets_of_mem_boundaries hm rfl

theorem text_meets {inside : String} {l : Lexeme} : (text inside).Meets l :=
  meets_iff.mpr fun _ _ => rfl

/-- A mark that no other begins with stays apart from everything. -/
theorem mark_meets_of_solitary {m : String} (hm : ∀ n ∈ marks, m.toList <+: n.toList → n = m)
    (hdot : m ≠ ".") (l : Lexeme) : (mark m).Meets l := by
  rw [meets_iff]
  intro c _
  refine mark_endsBefore (fun n hn hpre => ?_) (Or.inl hdot)
  obtain rfl := hm n hn ((List.prefix_append _ _).trans hpre)
  have hlen := hpre.length_le
  simp only [List.length_append, List.length_singleton] at hlen
  omega

theorem word_meets_mark {x m : String} (hm : m ∈ marks) : (word x).Meets (mark m) := by
  rw [meets_iff]
  intro c hc
  simpa [endsBefore] using ((marks_chars hm).2 c (List.mem_of_mem_head? hc)).2.1

theorem number_meets_mark {d m : String} (hm : m ∈ marks) (hdot : '.' ∉ m.toList) :
    (number d).Meets (mark m) := by
  rw [meets_iff]
  intro c hc
  have hmem := List.mem_of_mem_head? hc
  have hne : c ≠ '.' := fun h => hdot (h ▸ hmem)
  simpa [endsBefore, hne] using ((marks_chars hm).2 c hmem).2.1

end Lexeme

/-- Tokens one behind the other, with a blank behind those that ask for one. -/
def spellAll (ls : List (Lexeme × Bool)) : List Char :=
  ls.flatMap fun l => l.1.spelling ++ if l.2 then [' '] else []

/-- A blank stands between any two tokens that would not stay apart. -/
def Parted : List (Lexeme × Bool) → Prop := List.IsChain fun l m => l.2 = true ∨ l.1.Meets m.1

theorem newline_notMem_spellAll {ls : List (Lexeme × Bool)} (h : ∀ l ∈ ls, l.1.WellFormed) :
    '\n' ∉ spellAll ls := by
  intro hmem
  obtain ⟨l, hl, hmem⟩ := List.mem_flatMap.mp hmem
  rcases List.mem_append.mp hmem with hmem | hmem
  · exact Lexeme.newline_notMem_spelling (h l hl) hmem
  · split at hmem <;> simp at hmem

theorem lex_spelling_gap {l : Lexeme} (hl : l.WellFormed) {gap : Bool} {rest : List Char}
    (hr : gap = true ∨ ∀ c ∈ rest.head?, l.endsBefore c = true) :
    lex (l.spelling ++ (if gap then [' '] else []) ++ rest) = l :: lex rest := by
  cases gap with
  | false =>
    have hr' : ∀ c ∈ rest.head?, l.endsBefore c = true := by simpa using hr
    simpa using lex_spelling hl hr'
  | true =>
    have hr' : ∀ c ∈ (' ' :: rest).head?, l.endsBefore c = true := by
      rintro c ⟨⟩
      exact l.endsBefore_of_mem_boundaries hl (by decide)
    simpa [isBlank] using lex_spelling hl hr'

/-- Tokens that stay apart are read back one by one. -/
theorem lex_spellAll {ls : List (Lexeme × Bool)} (hw : ∀ l ∈ ls, l.1.WellFormed)
    (hp : Parted ls) {rest : List Char}
    (hr : ∀ l ∈ ls.getLast?, ∀ c ∈ rest.head?, l.1.endsBefore c = true) :
    lex (spellAll ls ++ rest) = ls.map (·.1) ++ lex rest := by
  induction ls with
  | nil => rfl
  | cons l ls ih =>
    have hl := hw l (by simp)
    have hrest : l.2 = true ∨ ∀ c ∈ (spellAll ls ++ rest).head?, l.1.endsBefore c = true := by
      cases ls with
      | nil => exact Or.inr fun c hc => hr l (by simp) c (by simpa [spellAll] using hc)
      | cons m ms =>
        have hm := Lexeme.spelling_ne_nil (hw m (by simp))
        obtain ⟨c, cs, hc⟩ := List.exists_cons_of_ne_nil hm
        refine (List.isChain_cons_cons.mp hp).1.imp_right fun hmeets d hd =>
          Lexeme.meets_iff.mp hmeets d ?_
        simpa [spellAll, hc] using hd
    have hls : lex (spellAll ls ++ rest) = ls.map (·.1) ++ lex rest := by
      refine ih (fun m hm => hw m (List.mem_cons_of_mem l hm)) hp.tail fun m hm => hr m ?_
      rw [List.getLast?_cons, Option.mem_def.mp hm]
      rfl
    have hcons : spellAll (l :: ls) ++ rest =
        l.1.spelling ++ (if l.2 then [' '] else []) ++ (spellAll ls ++ rest) := by
      simp [spellAll]
    rw [hcons, lex_spelling_gap hl hrest, hls]
    rfl

end BareBones.C
