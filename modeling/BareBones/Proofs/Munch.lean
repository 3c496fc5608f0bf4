import BareBones.Proofs.Scan

/-!
Single tokens and their characters. `Token.Whole` says which characters make up a
token of each class and `Token.EndsBefore` which character may stand behind it.
Under these two conditions a token is read back from its characters
(`Token.Whole.ofChars_eq`), and they hold of every token that is read
(`Munch.ofChars_exact`).
-/

namespace BareBones

/-! ## What a token takes -/

/-- The characters that a token takes from the text. -/
def Token.raw : Token → List Char
  | eof => []
  | newline => ['\n']
  | id name => name.toList
  | number digits => digits.toList
  | str text => '"' :: (text.toList ++ ['"'])
  | unknown text => text.toList
  | punctuation mark => mark.symbol.toList
  | operator op => op.symbol.toList
  | keyword k => k.word.toList

/-- Characters that begin a token of some class, a text, a comment or a blank. -/
def isKnown (c : Char) : Bool :=
  c = '\n' || Cursor.isBlank c || c = '#' || c = '"' || c.isAlphanum ||
    "()[]\x7b\x7d;,+-*/%=!<>".toList.contains c

/-- Input that belongs to no class: a single character, or a text without its end. -/
def IsUnknown (cs : List Char) : Prop :=
  (∃ c, cs = [c] ∧ isKnown c = false) ∨ ∃ inside, cs = '"' :: inside ∧ Unclosed inside

/-- The characters of a token make up such a token. -/
def Token.Whole : Token → Prop
  | unknown text => IsUnknown text.toList
  | t => t.WellFormed

/-- `c` behind the token is no part of it. -/
def Token.EndsBefore : Token → Char → Prop
  | id _, c | keyword _, c | comparison .and, c | comparison .or, c => c.isAlphanum = false
  | number _, c => c.isDigit = false
  | assign, c | not, c | comparison .less, c | comparison .greater, c => c ≠ '='
  | unknown text, c => text.toList.head? = some '"' → c = '\n'
  | _, _ => True

/-! ## Reading a whole token -/

namespace Munch

theorem ofChars_word {x : String} (hx : IsName x) {rest : List Char}
    (hr : ∀ c ∈ rest.head?, c.isAlphanum = false) :
    ofChars (x.toList ++ rest) = ⟨.ofWord x, x.toList, rest⟩ := by
  obtain ⟨c, cs, hxc, hc, hcs⟩ := hx
  obtain ⟨htake, hdrop⟩ := takeWhile_append_of_head hcs hr
  have hn : c ≠ '\n' := by rintro rfl; revert hc; decide
  have hq : c ≠ '"' := by rintro rfl; revert hc; decide
  have hd := isDigit_eq_false_of_isAlpha hc
  rw [hxc, List.cons_append, ofChars, startingWith, if_neg hn, if_neg hq, if_neg (by simp [hd]),
    if_pos hc, run, htake, hdrop, ← hxc, String.ofList_toList]

theorem ofChars_number {d : String} (hne : d.toList ≠ [])
    (hd : ∀ c ∈ d.toList, c.isDigit = true) {rest : List Char}
    (hr : ∀ c ∈ rest.head?, c.isDigit = false) :
    ofChars (d.toList ++ rest) = ⟨.number d, d.toList, rest⟩ := by
  obtain ⟨c, cs, hdc⟩ := List.exists_cons_of_ne_nil hne
  rw [hdc] at hd
  obtain ⟨hc, hcs⟩ := List.forall_mem_cons.mp hd
  obtain ⟨htake, hdrop⟩ := takeWhile_append_of_head hcs hr
  have hn : c ≠ '\n' := by rintro rfl; revert hc; decide
  have hq : c ≠ '"' := by rintro rfl; revert hc; decide
  rw [hdc, List.cons_append, ofChars, startingWith, if_neg hn, if_neg hq, if_pos hc, run, htake,
    hdrop, ← hdc, String.ofList_toList]

/-- No character of a quotable text ends it. -/
theorem splitText_append_of_quotable {inside : List Char} (h : Quotable inside)
    (passed rest : List Char) :
    splitText passed (inside ++ rest) = splitText (inside.reverse ++ passed) rest := by
  induction h generalizing passed with
  | nil => rfl
  | escape hn _ ih => simp [splitText, hn, ih]
  | plain hb hq hn _ ih => simp [splitText, hb, hq, hn, ih]

theorem ofChars_text {text : String} (h : Quotable text.toList) (rest : List Char) :
    ofChars ((Token.str text).raw ++ rest) = ⟨.str text, (Token.str text).raw, rest⟩ := by
  have hs : splitText [] (text.toList ++ '"' :: rest) = (text.toList, '"' :: rest) := by
    rw [splitText_append_of_quotable h]
    simp [splitText]
  have ht : (Token.str text).raw ++ rest = '"' :: (text.toList ++ '"' :: rest) := by
    simp [Token.raw]
  rw [ht, ofChars, startingWith, if_neg (by decide), if_pos rfl, Munch.text, hs]
  simp [Token.raw]

theorem splitText_unclosed {cs rest : List Char} (h : Unclosed cs)
    (hr : ∀ c ∈ rest.head?, c = '\n') : splitText [] (cs ++ rest) = (cs, rest) := by
  obtain ⟨inside, hi, rfl | rfl⟩ := h
  · rw [splitText_append_of_quotable hi]
    cases rest with
    | nil => simp [splitText]
    | cons c cs =>
      obtain rfl := hr c rfl
      simp [splitText]
  · rw [List.append_assoc, splitText_append_of_quotable hi]
    cases rest with
    | nil => simp [splitText]
    | cons c cs =>
      obtain rfl := hr c rfl
      simp [splitText]

theorem ofChars_unclosed {u : String} {inside : List Char} (hu : u.toList = '"' :: inside)
    (h : Unclosed inside) {rest : List Char} (hr : ∀ c ∈ rest.head?, c = '\n') :
    ofChars (u.toList ++ rest) = ⟨.unknown u, u.toList, rest⟩ := by
  have hs := splitText_unclosed h hr
  have hne : ∀ cs, rest ≠ '"' :: cs := by
    rintro cs rfl
    cases hr '"' rfl
  rw [hu, List.cons_append, ofChars, startingWith, if_neg (by decide), if_pos rfl, Munch.text, hs]
  cases rest with
  | nil => simp [← hu]
  | cons c cs =>
    obtain rfl := hr c rfl
    simp [← hu]

theorem symbols_head {t : Token} (ht : t ∈ symbols) {c : Char}
    (hc : c ∈ t.lexeme.toList.head?) :
    isKnown c = true ∧ c ≠ '\n' ∧ c ≠ '"' ∧ c.isDigit = false ∧ c.isAlpha = false := by
  have hall : (symbols.all fun t => t.lexeme.toList.head?.all fun c =>
      isKnown c && c ≠ '\n' && c ≠ '"' && !c.isDigit && !c.isAlpha) = true := by
    decide
  have h := List.all_eq_true.mp hall t ht
  rw [Option.mem_def.mp hc, Option.all_some] at h
  simp only [Bool.and_eq_true, decide_eq_true_eq, Bool.not_eq_true'] at h
  obtain ⟨⟨⟨⟨hk, hn⟩, hq⟩, hd⟩, ha⟩ := h
  exact ⟨hk, hn, hq, hd, ha⟩

theorem ofChars_stray {u : String} {c : Char} (hu : u.toList = [c]) (hc : isKnown c = false)
    (rest : List Char) : ofChars (u.toList ++ rest) = ⟨.unknown u, u.toList, rest⟩ := by
  have hsymbol : symbol? (c :: rest) = none := by
    rw [symbol?, List.find?_eq_none]
    intro t ht hp
    obtain ⟨d, ds, hd⟩ := List.exists_cons_of_ne_nil (symbols_lexeme_ne_nil t ht)
    obtain ⟨hk, -⟩ := symbols_head ht (c := d) (by simp [hd])
    rw [List.isPrefixOf_iff_prefix, hd, List.cons_prefix_cons] at hp
    rw [hp.1, hc] at hk
    cases hk
  simp only [isKnown, Char.isAlphanum, Bool.or_eq_false_iff, decide_eq_false_iff_not] at hc
  obtain ⟨⟨⟨⟨⟨hn, -⟩, -⟩, hq⟩, ha, hd⟩, -⟩ := hc
  have hstring : String.singleton c = u := String.toList_inj.mp (by simp [hu])
  rw [hu, List.cons_append, List.nil_append, ofChars, startingWith, if_neg hn, if_neg hq,
    if_neg (by simp [hd]), if_neg (by simp [ha]), symbol, hsymbol, hstring]

theorem symbols_pairwise : symbols.Pairwise fun t u =>
    u.lexeme.toList.length ≤ t.lexeme.toList.length ∧ u.lexeme.toList ≠ t.lexeme.toList := by
  decide

/-- Only `=` makes a symbol longer. -/
theorem symbols_extension : ∀ t ∈ symbols, ∀ u ∈ symbols,
    t.lexeme.toList <+: u.lexeme.toList → u.lexeme.toList ≠ t.lexeme.toList →
      u.lexeme.toList = t.lexeme.toList ++ ['='] ∧
        t ∈ [.assign, .not, .comparison .less, .comparison .greater] := by
  decide

theorem symbol?_lexeme {t : Token} (ht : t ∈ symbols) {rest : List Char}
    (hr : ∀ c ∈ rest.head?, t.EndsBefore c) : symbol? (t.lexeme.toList ++ rest) = some t := by
  apply find?_longest symbols_pairwise ht
  intro c hc u hu hp
  have hne : u.lexeme.toList ≠ t.lexeme.toList := by
    intro he
    have hlen := hp.length_le
    rw [he, List.length_append, List.length_singleton] at hlen
    omega
  obtain ⟨he, hmem⟩ := symbols_extension t ht u hu ((List.prefix_append _ _).trans hp) hne
  rw [he, List.prefix_append_right_inj] at hp
  obtain rfl : c = '=' := by simpa using hp
  have hend := hr '=' hc
  simp only [List.mem_cons, List.not_mem_nil, or_false] at hmem
  rcases hmem with rfl | rfl | rfl | rfl <;> exact hend rfl

theorem symbols_raw : ∀ t ∈ symbols, t.raw = t.lexeme.toList := by decide

theorem ofChars_symbol {t : Token} (ht : t ∈ symbols) {rest : List Char}
    (hr : ∀ c ∈ rest.head?, t.EndsBefore c) : ofChars (t.raw ++ rest) = ⟨t, t.raw, rest⟩ := by
  rw [symbols_raw t ht]
  obtain ⟨c, cs, hcs⟩ := List.exists_cons_of_ne_nil (symbols_lexeme_ne_nil t ht)
  obtain ⟨-, hn, hq, hd, ha⟩ := symbols_head ht (c := c) (by simp [hcs])
  have hsymbol := symbol?_lexeme ht hr
  rw [hcs, List.cons_append] at hsymbol ⊢
  rw [ofChars, startingWith, if_neg hn, if_neg hq, if_neg (by simp [hd]), if_neg (by simp [ha]),
    symbol, hsymbol]
  simp [hcs]

end Munch

theorem Keyword.isName_word (k : Keyword) : IsName k.word := by
  cases k <;> exact .of_all rfl (by decide)

theorem Token.ofWord_keyword (k : Keyword) : Token.ofWord k.word = .keyword k := by
  cases k <;> decide

/-- A token is read whole when the character behind it is no part of it. -/
theorem Token.Whole.ofChars_eq {t : Token} (h : t.Whole) (hne : t ≠ .eof) {rest : List Char}
    (hr : ∀ c ∈ rest.head?, t.EndsBefore c) :
    Munch.ofChars (t.raw ++ rest) = ⟨t, t.raw, rest⟩ := by
  cases t with
  | eof => exact absurd rfl hne
  | newline => rfl
  | id x => rw [Token.raw, Munch.ofChars_word h.1 hr, h.2]
  | number d => exact Munch.ofChars_number h.1 h.2 hr
  | str text => exact Munch.ofChars_text h rest
  | unknown u =>
    rcases h with ⟨c, hu, hc⟩ | ⟨inside, hu, hi⟩
    · exact Munch.ofChars_stray hu hc rest
    · exact Munch.ofChars_unclosed hu hi fun c hc => hr c hc (by rw [hu]; rfl)
  | punctuation m => exact Munch.ofChars_symbol (by cases m <;> decide) hr
  | keyword k => rw [Token.raw, Munch.ofChars_word k.isName_word hr, Token.ofWord_keyword]
  | operator op =>
    rcases op with _ | _ | op | op
    · exact Munch.ofChars_symbol (by decide) hr
    · exact Munch.ofChars_symbol (by decide) hr
    · exact Munch.ofChars_symbol (by cases op <;> decide) hr
    · by_cases hword : op = .and ∨ op = .or
      · have hname : IsName op.symbol := by
          rcases hword with rfl | rfl <;> exact .of_all rfl (by decide)
        have hend : ∀ c ∈ rest.head?, c.isAlphanum = false := by
          rcases hword with rfl | rfl <;> exact hr
        have hof : Token.ofWord op.symbol = .comparison op := by
          rcases hword with rfl | rfl <;> decide
        show Munch.ofChars (op.symbol.toList ++ rest) = _
        rw [Munch.ofChars_word hname hend, hof]
        rfl
      · exact Munch.ofChars_symbol (by revert hword; cases op <;> decide) hr

/-! ## What the reader takes -/

theorem Token.raw_ofWord (x : String) : (Token.ofWord x).raw = x.toList := by
  unfold Token.ofWord
  split
  · rename_i h
    rw [h]
    rfl
  · split
    · rename_i h
      rw [h]
      rfl
    · split
      · rename_i k hk
        have hw := List.find?_some hk
        simp only [decide_eq_true_eq] at hw
        rw [Token.raw, hw]
      · rfl

theorem Token.endsBefore_ofWord {c : Char} (hc : c.isAlphanum = false) (x : String) :
    (Token.ofWord x).EndsBefore c := by
  unfold Token.ofWord
  split
  · exact hc
  · split
    · exact hc
    · split <;> exact hc

theorem Token.WellFormed.whole {t : Token} (h : t.WellFormed) (hu : ∀ u, t ≠ .unknown u) :
    t.Whole := by
  cases t with
  | unknown u => exact absurd rfl (hu u)
  | _ => exact h

theorem Token.ofWord_ne_unknown (x u : String) : Token.ofWord x ≠ .unknown u := by
  unfold Token.ofWord
  split
  · simp
  · split
    · simp
    · split <;> simp

namespace Munch

/-- The token has the characters of its class and as many of them as there are. -/
structure Exact (m : Munch) : Prop where
  raw : m.raw = m.token.raw
  whole : m.token.Whole
  ends : ∀ c ∈ m.rest.head?, m.token.EndsBefore c

theorem head?_dropWhile_eq_false {more : Char → Bool} (cs : List Char) :
    ∀ c ∈ (cs.dropWhile more).head?, more c = false := by
  intro c hc
  have h := List.head?_dropWhile_not more cs
  rw [Option.mem_def.mp hc] at h
  simpa using h

theorem word_exact {c : Char} (hc : c.isAlpha = true) (cs : List Char) :
    (run .ofWord Char.isAlphanum c cs).Exact where
  raw := by simp only [run, Token.raw_ofWord, String.toList_ofList]
  whole := (word_wellFormed c cs hc).whole (Token.ofWord_ne_unknown _)
  ends d hd := Token.endsBefore_ofWord (head?_dropWhile_eq_false cs d hd) _

theorem number_exact {c : Char} (hc : c.isDigit = true) (cs : List Char) :
    (run .number Char.isDigit c cs).Exact where
  raw := by simp only [run, Token.raw, String.toList_ofList]
  whole := (number_wellFormed c cs hc).whole (by simp [run])
  ends := head?_dropWhile_eq_false cs

theorem text_exact (cs : List Char) : (text cs).Exact := by
  obtain ⟨inside, hi, hq⟩ := splitText_cases [] cs
  rw [List.reverse_nil, List.nil_append] at hi
  unfold text
  split
  · rename_i inside' rest hs
    rw [hs] at hi hq
    obtain rfl : inside' = inside := hi
    have hquotable : Quotable inside' := by
      rcases hq with ⟨-, hq⟩ | ⟨hend, -⟩
      · exact hq
      · exact absurd (hend '"' rfl) (by decide)
    exact ⟨by simp [Token.raw], by simpa [Token.Whole, Token.WellFormed] using hquotable,
      fun _ _ => trivial⟩
  · rename_i inside' rest hne hs
    rw [hs] at hi hq
    obtain rfl : inside' = inside := hi
    have hopen : (∀ c ∈ rest.head?, c = '\n') ∧ Unclosed inside' := by
      rcases hq with ⟨hend, -⟩ | hq
      · obtain ⟨ds, rfl⟩ : ∃ ds, rest = '"' :: ds := by simpa [List.head?_eq_some_iff] using hend
        exact absurd rfl (hne ds)
      · exact hq
    exact ⟨by simp [Token.raw], Or.inr ⟨inside', by simp, hopen.2⟩, fun c hc _ => hopen.1 c hc⟩

/-- A character that begins a symbol is a symbol on its own. -/
theorem isSome_symbol? {c : Char} (hc : c ∈ "()[]\x7b\x7d;,+-*/%=!<>".toList)
    (cs : List Char) : (symbol? (c :: cs)).isSome = true := by
  have hall : ("()[]\x7b\x7d;,+-*/%=!<>".toList.all fun c =>
      symbols.any fun t => t.lexeme.toList = [c]) = true := by
    decide
  obtain ⟨t, ht, htc⟩ := List.any_eq_true.mp (List.all_eq_true.mp hall c hc)
  rw [decide_eq_true_eq] at htc
  rw [symbol?, List.find?_isSome]
  exact ⟨t, ht, by simp [htc]⟩

theorem symbols_whole : ∀ t ∈ symbols, t.Whole := by
  simp [symbols, Token.Whole, Token.WellFormed]

/-- A symbol that does not end before `d` goes on with it. -/
theorem exists_longer {t : Token} (ht : t ∈ symbols) {d : Char} (h : ¬ t.EndsBefore d) :
    d = '=' ∧ ∃ u ∈ symbols, u.lexeme.toList = t.lexeme.toList ++ ['='] ∧ u ≠ t ∧
      ∀ c, u.EndsBefore c := by
  cases t with
  | operator op =>
    rcases op with _ | _ | op | op
    · exact ⟨Classical.not_not.mp h, .comparison .equal, by decide, by decide, by decide,
        fun _ => trivial⟩
    · exact ⟨Classical.not_not.mp h, .comparison .notEqual, by decide, by decide, by decide,
        fun _ => trivial⟩
    · exact absurd trivial h
    · cases op with
      | less =>
        exact ⟨Classical.not_not.mp h, .comparison .lessOrEqual, by decide, by decide, by decide,
          fun _ => trivial⟩
      | greater =>
        exact ⟨Classical.not_not.mp h, .comparison .greaterOrEqual, by decide, by decide, by decide,
          fun _ => trivial⟩
      | and => exact absurd ht (by decide)
      | or => exact absurd ht (by decide)
      | _ => exact absurd trivial h
  | punctuation m => exact absurd trivial h
  | _ => simp [symbols] at ht

theorem symbol_exact {c : Char} (hc : Cursor.isBlank c = false ∧ c ≠ '#') (hn : c ≠ '\n')
    (hq : c ≠ '"') (hd : c.isDigit = false) (ha : c.isAlpha = false) (cs : List Char) :
    (symbol c cs).Exact := by
  unfold symbol
  split
  · rename_i t h
    have ht : t ∈ symbols := List.mem_of_find?_eq_some h
    refine ⟨(symbols_raw t ht).symm, symbols_whole t ht, ?_⟩
    intro d hd
    refine Classical.byContradiction fun hend => ?_
    -- the longer symbol would have been found instead of `t`
    obtain ⟨rfl, u, hu, hlonger, hne, hall⟩ := exists_longer ht hend
    have hpre := List.find?_some h
    rw [List.isPrefixOf_iff_prefix] at hpre
    obtain ⟨rest, hrest⟩ := hpre
    rw [← hrest, List.drop_left] at hd
    obtain ⟨more, rfl⟩ := List.head?_eq_some_iff.mp hd
    rw [List.append_cons, ← hlonger] at hrest
    rw [← hrest, symbol?_lexeme hu fun c _ => hall c] at h
    exact hne (Option.some.inj h)
  · rename_i h
    have hs : c ∉ "()[]\x7b\x7d;,+-*/%=!<>".toList := by
      intro hmem
      have hsome := isSome_symbol? hmem cs
      rw [h] at hsome
      cases hsome
    have hk : isKnown c = false := by
      simp only [isKnown, Char.isAlphanum, hc.1, hd, ha, Bool.or_eq_false_iff,
        decide_eq_false_iff_not, List.contains_eq_mem]
      exact ⟨⟨⟨⟨⟨hn, trivial⟩, hc.2⟩, hq⟩, trivial, trivial⟩, hs⟩
    exact ⟨by simp [Token.raw], Or.inl ⟨c, by simp, hk⟩, by simp [Token.EndsBefore, hq]⟩

theorem ofChars_exact {cs : List Char}
    (h : ∀ c ∈ cs.head?, Cursor.isBlank c = false ∧ c ≠ '#') : (ofChars cs).Exact := by
  cases cs with
  | nil => exact ⟨rfl, trivial, by simp [ofChars]⟩
  | cons c cs =>
    show (startingWith c cs).Exact
    fun_cases startingWith c cs with
    | case1 hn => exact ⟨by rw [hn]; rfl, trivial, fun _ _ => trivial⟩
    | case2 => exact text_exact cs
    | case3 _ _ hd => exact number_exact hd cs
    | case4 _ _ _ ha => exact word_exact ha cs
    | case5 hn hq hd ha =>
      exact symbol_exact (h c rfl) hn hq (by simpa using hd) (by simpa using ha) cs

end Munch

theorem isBlank_eq_false_of_isAlphanum {c : Char} (h : c.isAlphanum = true) :
    Cursor.isBlank c = false ∧ c ≠ '#' := by
  refine ⟨?_, by rintro rfl; revert h; decide⟩
  rw [Bool.eq_false_iff]
  intro hb
  simp only [Cursor.isBlank, Bool.or_eq_true, decide_eq_true_eq] at hb
  rcases hb with (rfl | rfl) | rfl <;> revert h <;> decide

/-- A token has a first character, which is no blank and begins no comment. -/
theorem Token.Whole.raw_eq_cons {t : Token} (h : t.Whole) (hne : t ≠ .eof) :
    ∃ c cs, t.raw = c :: cs ∧ Cursor.isBlank c = false ∧ c ≠ '#' := by
  cases t with
  | eof => exact absurd rfl hne
  | newline => exact ⟨'\n', [], rfl, by decide⟩
  | id x =>
    obtain ⟨c, cs, hx, hc, -⟩ := h.1
    exact ⟨c, cs, hx, isBlank_eq_false_of_isAlphanum (by simp [Char.isAlphanum, hc])⟩
  | number d =>
    obtain ⟨c, cs, hd⟩ := List.exists_cons_of_ne_nil h.1
    have hc : c.isDigit = true := h.2 c (by simp [hd])
    exact ⟨c, cs, hd, isBlank_eq_false_of_isAlphanum (by simp [Char.isAlphanum, hc])⟩
  | str text => exact ⟨'"', _, rfl, by decide⟩
  | unknown u =>
    rcases h with ⟨c, hu, hc⟩ | ⟨inside, hu, -⟩
    · simp only [isKnown, Bool.or_eq_false_iff, decide_eq_false_iff_not] at hc
      exact ⟨c, [], hu, hc.1.1.1.1.2, hc.1.1.1.2⟩
    · exact ⟨'"', inside, hu, by decide⟩
  | punctuation m => cases m <;> exact ⟨_, _, rfl, by decide⟩
  | operator op =>
    rcases op with _ | _ | op | op <;> (try cases op) <;> exact ⟨_, _, rfl, by decide⟩
  | keyword k => cases k <;> exact ⟨_, _, rfl, by decide⟩

end BareBones
