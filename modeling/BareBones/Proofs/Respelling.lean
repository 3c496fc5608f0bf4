import BareBones.Proofs.Printing

/-!
Tokens spelled out and read again. Every token that is not the end of a text or unknown
input has a spelling; spelled with blanks between them, any tokens whatever make up a
text that is cut into these tokens again (`Source.tokens_respelled`). So the spellings of
symbols and keywords and the table of words agree with what the reader takes them for.
-/

namespace BareBones

namespace Token

/-- How a token is written in a source: its characters, with the quotes around a text
and the character itself for a newline. -/
def spelling : Token → String
  | newline => "\n"
  | str text => "\"" ++ text ++ "\""
  | t => t.lexeme

/-- A token other than the end of a text and unknown input, whose own characters are
those of its class. -/
def Spellable : Token → Prop
  | eof | unknown _ => False
  | id name => IsName name ∧ name ∉ reservedWords
  | number digits => digits.toList ≠ [] ∧ ∀ c ∈ digits.toList, c.isDigit = true
  | str text => Quotable text.toList
  | newline | punctuation _ | operator _ | keyword _ => True

namespace Spellable

variable {t : Token}

theorem wellFormed (h : t.Spellable) : t.WellFormed := by
  cases t with
  | id x => exact ⟨h.1, ofWord_of_notMem h.2⟩
  | number d => exact h
  | str text => exact h
  | _ => trivial

theorem separable (h : t.Spellable) : t.Separable where
  ne_eof := by
    rintro rfl
    exact h
  whole := h.wellFormed.whole fun u hu => by
    subst hu
    exact h
  closed hopen := by
    cases t with
    | unknown u => exact h
    | _ => exact hopen

/-- The spelling consists of the characters that the token takes when it is read. -/
theorem toList_spelling (h : t.Spellable) : t.spelling.toList = t.raw := by
  cases t with
  | eof => exact h.elim
  | unknown u => exact h.elim
  | newline => decide
  | str text => simp [spelling, raw]
  | _ => rfl

end Spellable

/-- The spellings with a blank between each two of them. -/
theorem toList_intercalate_spelling {w : List Token} (h : ∀ t ∈ w, t.Spellable) :
    (" ".intercalate (w.map spelling)).toList = spaced w := by
  fun_induction spaced w with
  | case1 => rfl
  | case2 t =>
    have ht := h t (List.mem_singleton_self t)
    simpa using ht.toList_spelling
  | case3 t u w ih =>
    obtain ⟨ht, hw⟩ := List.forall_mem_cons.mp h
    have hrest := ih hw
    simp only [List.map_cons] at hrest ⊢
    rw [String.intercalate_cons_cons, String.toList_append, String.toList_append, hrest,
      ht.toList_spelling, List.append_assoc]
    rfl

end Token

/-- Reading undoes spelling: tokens of any kinds next to each other in any order, spelled
out with single blanks between them, are read as exactly these tokens. -/
theorem Source.tokens_respelled (name : String) (w : List Token) (h : ∀ t ∈ w, t.Spellable) :
    (Source.mk name (" ".intercalate (w.map Token.spelling))).tokens.map (·.val) =
      w ++ [.eof] := by
  have htext : " ".intercalate (w.map Token.spelling) = String.ofList (Token.spaced w) := by
    rw [← Token.toList_intercalate_spelling h, String.ofList_toList]
  rw [htext]
  exact Source.tokens_spaced name fun t ht => (h t ht).separable

/-- Neighbours that would be taken for other tokens without a blank between them. -/
def Token.neighbours : List Token :=
  [.keyword .if_, .id "f1", .number "007", .id "android", .comparison .and, .not, .assign,
    .comparison .equal, .newline, .str "#\\\"\\\\", .str "", .comparison .less, .comparison .less]

theorem Source.tokens_respelled_neighbours :
    (∀ t ∈ Token.neighbours, t.Spellable) ∧
    (Source.mk "neighbours"
      "if f1 007 android and ! = == \n \"#\\\"\\\\\" \"\" < <").tokens.map (·.val) =
        Token.neighbours ++ [.eof] := by
  have hspellable : ∀ t ∈ Token.neighbours, t.Spellable := by
    simp only [Token.neighbours, List.forall_mem_cons, List.not_mem_nil, false_implies,
      implies_true, and_true]
    refine ⟨trivial, ?_, ?_, ?_, trivial, trivial, trivial, trivial, trivial, ?_, .nil,
      trivial, trivial⟩
    · exact ⟨.of_all rfl (by decide), by decide⟩
    · exact ⟨by decide, List.all_eq_true.mp (by decide)⟩
    · exact ⟨.of_all rfl (by decide), by decide⟩
    · exact .plain (by decide) (by decide) (by decide)
        (.escape (by decide) (.escape (by decide) .nil))
  exact ⟨hspellable, Source.tokens_respelled "neighbours" Token.neighbours hspellable⟩

end BareBones
