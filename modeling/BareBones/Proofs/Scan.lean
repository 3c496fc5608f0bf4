import BareBones.Token.Scan

/-!
The tokens of a text: `eof` is the last one and only the last one, and the
characters that names, numbers and texts carry are the ones their class allows.
-/

namespace BareBones

/-! ## Characters of a token -/

/-- What may stand between two quotes: no newline, and no quote that a backslash
does not escape. A backslash takes the character behind it along. -/
inductive Quotable : List Char → Prop
  | nil : Quotable []
  | escape {c : Char} {cs : List Char} : c ≠ '\n' → Quotable cs → Quotable ('\\' :: c :: cs)
  | plain {c : Char} {cs : List Char} : c ≠ '\\' → c ≠ '"' → c ≠ '\n' → Quotable cs →
      Quotable (c :: cs)

theorem Quotable.append {cs ds : List Char} (hc : Quotable cs) (hd : Quotable ds) :
    Quotable (cs ++ ds) := by
  induction hc with
  | nil => exact hd
  | escape hn _ ih => exact .escape hn ih
  | plain hb hq hn _ ih => exact .plain hb hq hn ih

theorem Quotable.newline_notMem {cs : List Char} (h : Quotable cs) : '\n' ∉ cs := by
  induction h with
  | nil => simp
  | escape hn _ ih => simp [ih, Ne.symm hn]
  | plain _ _ hn _ ih => simp [ih, Ne.symm hn]

/-- What stands behind a quote that its line does not close. A backslash may stand
last, with nothing behind it to escape. -/
def Unclosed (cs : List Char) : Prop :=
  ∃ inside, Quotable inside ∧ (cs = inside ∨ cs = inside ++ ['\\'])

theorem Unclosed.escape {c : Char} {cs : List Char} (h : Unclosed cs) (hn : c ≠ '\n') :
    Unclosed ('\\' :: c :: cs) := by
  obtain ⟨inside, hi, hcs⟩ := h
  exact ⟨_, .escape hn hi, hcs.imp (by rintro rfl; rfl) (by rintro rfl; rfl)⟩

theorem Unclosed.plain {c : Char} {cs : List Char} (h : Unclosed cs) (hb : c ≠ '\\')
    (hq : c ≠ '"') (hn : c ≠ '\n') : Unclosed (c :: cs) := by
  obtain ⟨inside, hi, hcs⟩ := h
  exact ⟨_, .plain hb hq hn hi, hcs.imp (by rintro rfl; rfl) (by rintro rfl; rfl)⟩

/-- A letter, followed by letters and digits. -/
def IsName (x : String) : Prop :=
  ∃ c cs, x.toList = c :: cs ∧ c.isAlpha = true ∧ ∀ d ∈ cs, d.isAlphanum = true

theorem IsName.of_all {x : String} {c : Char} {cs : List Char} (hx : x.toList = c :: cs)
    (h : (c.isAlpha && cs.all Char.isAlphanum) = true) : IsName x := by
  rw [Bool.and_eq_true] at h
  exact ⟨c, cs, hx, h.1, List.all_eq_true.mp h.2⟩

/-- The characters of a token are those of its class. -/
def Token.WellFormed : Token → Prop
  | id x => IsName x ∧ Token.ofWord x = id x
  | number d => d.toList ≠ [] ∧ ∀ c ∈ d.toList, c.isDigit = true
  | str text => Quotable text.toList
  | _ => True

theorem toString_digits (n : Nat) :
    (toString n).toList ≠ [] ∧ ∀ c ∈ (toString n).toList, c.isDigit = true := by
  rw [Nat.toString_eq_ofList_toDigits, String.toList_ofList]
  exact ⟨Nat.toDigits_ne_nil, fun c hc => Nat.isDigit_of_mem_toDigits (by omega) (by omega) hc⟩

theorem isDigit_eq_false_of_isAlpha {c : Char} (h : c.isAlpha = true) : c.isDigit = false := by
  rw [Bool.eq_false_iff]
  intro hd
  delta Char.isAlpha Char.isUpper Char.isLower at h
  simp only [Char.isDigit, Bool.or_eq_true, Bool.and_eq_true, decide_eq_true_eq,
    UInt32.le_iff_toNat_le, ge_iff_le] at h hd
  have h9 : '9'.val.toNat = 57 := rfl
  have ha : 'a'.val.toNat = 97 := rfl
  have hA : 'A'.val.toNat = 65 := rfl
  omega

theorem takeWhile_append_of_head {p : Char → Bool} {cs rest : List Char}
    (hc : ∀ c ∈ cs, p c = true) (hr : ∀ c ∈ rest.head?, p c = false) :
    (cs ++ rest).takeWhile p = cs ∧ (cs ++ rest).dropWhile p = rest := by
  rw [List.takeWhile_append_of_pos hc, List.dropWhile_append_of_pos hc]
  cases rest with
  | nil => simp
  | cons d ds =>
    have hd : p d = false := hr d (by simp)
    simp [hd]

/-- Of several spellings, the longer ones first, the one that a text begins with is
found, if the character behind it does not continue another of them. -/
theorem find?_longest {α : Type} {l : List α} {spelling : α → List Char}
    (hl : l.Pairwise fun m n =>
      (spelling n).length ≤ (spelling m).length ∧ spelling n ≠ spelling m)
    {m : α} (hm : m ∈ l) {rest : List Char}
    (hr : ∀ c ∈ rest.head?, ∀ n ∈ l, ¬ spelling m ++ [c] <+: spelling n) :
    l.find? (fun n => (spelling n).isPrefixOf (spelling m ++ rest)) = some m := by
  obtain ⟨before, behind, rfl⟩ := List.append_of_mem hm
  rw [List.pairwise_append] at hl
  rw [List.find?_eq_some_iff_append]
  refine ⟨by simp, before, behind, rfl, ?_⟩
  intro n hn
  obtain ⟨hlen, hne⟩ := hl.2.2 n hn m (by simp)
  rw [Bool.not_eq_true', Bool.eq_false_iff, ne_eq, List.isPrefixOf_iff_prefix]
  intro hpre
  -- a longer spelling would begin with that of `m` and the character behind it
  have hmn : spelling m <+: spelling n :=
    List.prefix_of_prefix_length_le (List.prefix_append _ _) hpre hlen
  obtain ⟨more, hmore⟩ := hmn
  cases more with
  | nil => exact hne (by simpa using hmore)
  | cons d more =>
    rw [← hmore, List.prefix_append_right_inj] at hpre
    obtain ⟨rest', rfl⟩ := hpre
    exact hr d (by simp) n (List.mem_append_left _ hn) ⟨more, by simp [← hmore]⟩

namespace Munch

/-- A text runs to a quote with only escaped quotes inside, or to the end of its
line. -/
theorem splitText_cases (passed cs : List Char) :
    ∃ inside, (splitText passed cs).1 = passed.reverse ++ inside ∧
      ((splitText passed cs).2.head? = some '"' ∧ Quotable inside ∨
        (∀ c ∈ (splitText passed cs).2.head?, c = '\n') ∧ Unclosed inside) := by
  fun_induction splitText passed cs with
  | case1 passed => exact ⟨[], by simp, Or.inr ⟨by simp, [], .nil, Or.inl rfl⟩⟩
  | case2 passed cs => exact ⟨['\\'], by simp, Or.inr ⟨by simp, [], .nil, Or.inr rfl⟩⟩
  | case3 passed c cs hc ih =>
    obtain ⟨inside, hi, hq⟩ := ih
    refine ⟨'\\' :: c :: inside, by simp [hi], hq.imp ?_ ?_⟩
    · exact And.imp_right (.escape hc)
    · exact And.imp_right (·.escape hc)
  | case4 passed c cs hne hc =>
    refine ⟨[], by simp, ?_⟩
    rcases hc with rfl | rfl
    · exact Or.inl ⟨rfl, .nil⟩
    · exact Or.inr ⟨by simp, [], .nil, Or.inl rfl⟩
  | case5 passed c cs hne hc ih =>
    obtain ⟨inside, hi, hq⟩ := ih
    refine ⟨c :: inside, by simp [hi], ?_⟩
    by_cases hb : c = '\\'
    · -- a backslash that escapes nothing is the last character of the text
      subst hb
      cases cs with
      | nil =>
        obtain rfl : inside = [] := by simpa [splitText] using hi
        exact Or.inr ⟨by simp [splitText], [], .nil, Or.inr rfl⟩
      | cons d ds => exact absurd rfl (hne d ds rfl)
    · have hq' : c ≠ '"' := fun h => hc (Or.inl h)
      have hn : c ≠ '\n' := fun h => hc (Or.inr h)
      refine hq.imp ?_ ?_
      · exact And.imp_right (.plain hb hq' hn)
      · exact And.imp_right (·.plain hb hq' hn)

theorem text_wellFormed (cs : List Char) : (text cs).token.WellFormed := by
  obtain ⟨inside, hi, hq⟩ := splitText_cases [] cs
  unfold text
  split
  · rename_i inside' rest hs
    rw [hs] at hi hq
    have hi' : inside' = inside := by simpa using hi
    rw [Token.WellFormed, String.toList_ofList, hi']
    rcases hq with ⟨-, hq⟩ | ⟨hend, -⟩
    · exact hq
    · exact absurd (hend '"' rfl) (by decide)
  · trivial

theorem number_wellFormed (c : Char) (cs : List Char) (hc : c.isDigit = true) :
    (run .number Char.isDigit c cs).token.WellFormed := by
  refine ⟨by simp, ?_⟩
  intro d hd
  rw [String.toList_ofList] at hd
  rcases List.mem_cons.mp hd with rfl | hd
  · exact hc
  · exact List.all_eq_true.mp List.all_takeWhile d hd

theorem word_wellFormed (c : Char) (cs : List Char) (hc : c.isAlpha = true) :
    (run .ofWord Char.isAlphanum c cs).token.WellFormed := by
  have hname : IsName (String.ofList (c :: cs.takeWhile Char.isAlphanum)) := by
    refine ⟨c, cs.takeWhile Char.isAlphanum, by rw [String.toList_ofList], hc, ?_⟩
    intro d hd
    exact List.all_eq_true.mp List.all_takeWhile d hd
  show (Token.ofWord (String.ofList (c :: cs.takeWhile Char.isAlphanum))).WellFormed
  generalize String.ofList (c :: cs.takeWhile Char.isAlphanum) = x at hname ⊢
  unfold Token.ofWord
  split
  · trivial
  · split
    · trivial
    · split
      · trivial
      · refine ⟨hname, ?_⟩
        simp_all [Token.ofWord]

theorem symbol_wellFormed (c : Char) (cs : List Char) : (symbol c cs).token.WellFormed := by
  have hall : ∀ t ∈ symbols, t.WellFormed := by
    simp [symbols, Token.WellFormed]
  unfold symbol
  split
  · rename_i t h
    exact hall t (List.mem_of_find?_eq_some h)
  · trivial

theorem startingWith_wellFormed (c : Char) (cs : List Char) :
    (startingWith c cs).token.WellFormed := by
  fun_cases startingWith c cs with
  | case1 => trivial
  | case2 => exact text_wellFormed cs
  | case3 _ _ hd => exact number_wellFormed c cs hd
  | case4 _ _ _ ha => exact word_wellFormed c cs ha
  | case5 => exact symbol_wellFormed c cs

theorem ofChars_wellFormed (cs : List Char) : (ofChars cs).token.WellFormed := by
  cases cs with
  | nil => trivial
  | cons c cs => exact startingWith_wellFormed c cs

end Munch

/-! ## The list of all tokens -/

namespace Cursor

theorem tokensFrom_eq_append (seen : List (Located Token)) (k : Cursor) :
    ∃ ts e, k.tokensFrom seen = seen.reverse ++ ts ++ [e] ∧ e.val = .eof ∧
      ∀ t ∈ ts, t.val ≠ .eof ∧ t.val.WellFormed := by
  fun_induction tokensFrom seen k with
  | case1 seen k he => exact ⟨[], k.next.1, by simp, he, by simp⟩
  | case2 seen k hne ih =>
    obtain ⟨ts, e, heq, he, hts⟩ := ih
    refine ⟨k.next.1 :: ts, e, by simp [heq], he, ?_⟩
    intro t ht
    rcases List.mem_cons.mp ht with rfl | ht
    · exact ⟨hne, Munch.ofChars_wellFormed _⟩
    · exact hts t ht

end Cursor

/-- The tokens before the last one, which is `eof`, are well-formed and no `eof`. -/
theorem Source.tokens_eq_append (s : Source) :
    ∃ ts e, s.tokens = ts ++ [e] ∧ e.val = .eof ∧ ∀ t ∈ ts, t.val ≠ .eof ∧ t.val.WellFormed := by
  obtain ⟨ts, e, heq, he, hts⟩ := Cursor.tokensFrom_eq_append [] s.cursor
  exact ⟨ts, e, by simpa [Source.tokens] using heq, he, hts⟩

end BareBones
