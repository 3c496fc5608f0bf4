import BareBones.Proofs.C.Reference
import BareBones.Proofs.Grammar

/-!
Blanks between the tokens of one line. Each format leaves a blank out only where
the tokens stay apart without it, as long as no operator is followed by a binary
one (`gap_or_meets`). The tokens of expressions and conditions keep to that
(`Phrased`), so that a line of them is read back token by token.
-/

namespace BareBones

open C

/-! ## Tokens in C -/

/-- The C token that a token is written as. -/
def Token.toLexeme : Token → Lexeme
  | id x => .word x
  | number d => .number d
  | str text => .text text
  | keyword k => .word (Token.keyword k).toC
  | punctuation m => .mark m.symbol
  | operator op => .mark (Token.operator op).toC
  | eof | newline | unknown _ => .stray ' '

theorem Token.spelling_toLexeme {t : Token} (ht : t.toLexeme.WellFormed) :
    t.toLexeme.spelling = t.toC.toList := by
  cases t with
  | eof | newline | unknown => exact ht.elim
  | str text => simp [toLexeme, Lexeme.spelling, toC]
  | keyword k => rfl
  | operator op => rfl
  | _ => rfl

theorem Token.toC_ne_nil {t : Token} (ht : t.toLexeme.WellFormed) : t.toC.toList ≠ [] := by
  rw [← Token.spelling_toLexeme ht]
  exact Lexeme.spelling_ne_nil ht

/-- A name of the language is a word of C. -/
theorem IsName.isWord {x : String} (h : IsName x) : IsWord x := by
  obtain ⟨c, cs, hx, hc, hcs⟩ := h
  refine ⟨c, cs, hx, by simp [isWordChar, Char.isAlphanum, hc], isDigit_eq_false_of_isAlpha hc, ?_⟩
  intro d hd
  simp [isWordChar, hcs d hd]

theorem Keyword.isWord_toC (k : Keyword) : IsWord (Token.keyword k).toC := by
  cases k <;> exact .of_all rfl (by decide)

theorem Operator.toC_mem_marks (op : Operator) : (Token.operator op).toC ∈ marks := by
  rcases op with _ | _ | op | op
  · decide
  · decide
  · cases op <;> decide
  · cases op <;> decide

theorem Punctuation.symbol_mem_marks (m : Punctuation) : m.symbol ∈ marks := by
  cases m <;> decide

/-- The names and texts of a tree have the characters of their class. -/
def Token.Legible : Token → Prop
  | id x => IsName x
  | str text => Quotable text.toList
  | _ => True

theorem Literal.token_wellFormed (n : Literal) : n.token.toLexeme.WellFormed :=
  toString_digits n.value

mutual

theorem Factor.tokens_wellFormed (f : Factor) (h : ∀ t ∈ f.tokens, t.Legible) :
    ∀ t ∈ f.tokens, t.toLexeme.WellFormed := by
  cases f with
  | number n s => simpa using n.token_wellFormed
  | var x s =>
    rw [Factor.tokens_var, List.forall_mem_singleton] at h ⊢
    exact IsName.isWord h
  | group e s =>
    simp only [Factor.tokens_group, List.forall_mem_cons, List.forall_mem_append] at h ⊢
    exact ⟨Punctuation.symbol_mem_marks _, e.tokens_wellFormed h.2.1,
      Punctuation.symbol_mem_marks _, by simp⟩

theorem Expr.tokens_wellFormed (e : Expr) (h : ∀ t ∈ e.tokens, t.Legible) :
    ∀ t ∈ e.tokens, t.toLexeme.WellFormed := by
  cases e with
  | factor f => exact f.tokens_wellFormed h
  | binary left op right =>
    simp only [Expr.tokens_binary, List.forall_mem_cons, List.forall_mem_append] at h ⊢
    exact ⟨left.tokens_wellFormed h.1, Operator.toC_mem_marks _, right.tokens_wellFormed h.2.2⟩

end

theorem Operand.token_wellFormed (x : Operand) (h : x.token.Legible) :
    x.token.toLexeme.WellFormed := by
  cases x with
  | number n => exact n.token_wellFormed
  | var x => exact IsName.isWord h

theorem Condition.sign_wellFormed (n : Bool) : ∀ t ∈ sign n, t.toLexeme.WellFormed := by
  cases n with
  | false => simp [sign]
  | true =>
    rw [sign, if_pos rfl, List.forall_mem_singleton]
    exact Operator.toC_mem_marks .not

theorem Condition.tokens_wellFormed (c : Condition) (h : ∀ t ∈ c.tokens, t.Legible) :
    ∀ t ∈ c.tokens, t.toLexeme.WellFormed := by
  induction c with
  | simple n x =>
    simp only [tokens_simple, List.forall_mem_append, List.forall_mem_singleton] at h ⊢
    exact ⟨sign_wellFormed n, x.token_wellFormed h.2⟩
  | compare n x op y =>
    simp only [tokens_compare, List.forall_mem_append, List.forall_mem_cons] at h ⊢
    exact ⟨sign_wellFormed n, x.token_wellFormed h.2.1, Operator.toC_mem_marks _,
      y.token_wellFormed h.2.2.2.1, by simp⟩
  | group n c ih =>
    simp only [tokens_group, List.forall_mem_append, List.forall_mem_cons] at h ⊢
    exact ⟨sign_wellFormed n, Punctuation.symbol_mem_marks _, ih h.2.2.1,
      Punctuation.symbol_mem_marks _, by simp⟩
  | groupThen n c op d ihc ihd =>
    simp only [tokens_groupThen, List.forall_mem_append, List.forall_mem_cons] at h ⊢
    exact ⟨sign_wellFormed n, Punctuation.symbol_mem_marks _, ihc h.2.2.1,
      Punctuation.symbol_mem_marks _, Operator.toC_mem_marks _, ihd h.2.2.2.2.2⟩

/-! ## The blanks of a line -/

namespace C

/-- Whether a blank stands between two tokens of one line. -/
def gapBetween (f : Format) (t u : Token) : Bool :=
  match f with
  | .pretty => !(Piece.token t).hugsRight && !(Piece.token u).hugsLeft
  | .compact =>
    match t.toC.toList.getLast?, u.toC.toList.head? with
    | some a, some b => runTogether a b
    | _, _ => false

/-- The tokens of a line, with the blanks that the format puts between them. -/
def spaced (f : Format) : List Token → List (Lexeme × Bool)
  | [] => []
  | [t] => [(t.toLexeme, false)]
  | t :: u :: ts => (t.toLexeme, gapBetween f t u) :: spaced f (u :: ts)

theorem map_fst_spaced (f : Format) (ts : List Token) :
    (spaced f ts).map (·.1) = ts.map Token.toLexeme := by
  fun_induction spaced f ts with
  | case1 => rfl
  | case2 => rfl
  | case3 t u ts ih => simp only [List.map_cons, ih]

/-- A line looks back at its last token only. -/
theorem Pen.gap_eq {f : Format} {t u : Token} {w : List Char} (ht : t.toC.toList ≠ []) :
    Pen.gap f ⟨t.toC.toList.reverse ++ w, some (.token t)⟩ (.token u) = gapBetween f t u := by
  cases f with
  | pretty => rfl
  | compact =>
    have hhead : (t.toC.toList.reverse ++ w).head? = t.toC.toList.getLast? := by
      rw [List.head?_append_of_ne_nil _ (by simpa using ht), List.head?_reverse]
    cases hlast : t.toC.toList.getLast? <;> cases hfirst : u.toC.toList.head? <;>
      simp [Pen.gap, gapBetween, Piece.text, hhead, hlast, hfirst]

theorem Pen.foldl_put_tokens {f : Format} {t : Token} {ts : List Token} (w : List Char)
    (ht : t.toLexeme.WellFormed) (hts : ∀ u ∈ ts, u.toLexeme.WellFormed) :
    ((ts.map Piece.token).foldl (Pen.put f)
      ⟨t.toC.toList.reverse ++ w, some (.token t)⟩).written.reverse =
        w.reverse ++ spellAll (spaced f (t :: ts)) := by
  induction ts generalizing t w with
  | nil => simp [spaced, spellAll, Token.spelling_toLexeme ht]
  | cons u ts ih =>
    have hu := hts u (by simp)
    have hrest := fun v hv => hts v (List.mem_cons_of_mem u hv)
    rw [List.map_cons, List.foldl_cons, Pen.put, Pen.gap_eq (Token.toC_ne_nil ht)]
    simp only [Piece.text]
    rw [ih _ hu hrest, spaced]
    cases gapBetween f t u with
    | false => simp [spellAll, Token.spelling_toLexeme ht]
    | true => simp [spellAll, Token.spelling_toLexeme ht]

/-- A line of tokens is these tokens with blanks between them. -/
theorem Line.content_tokens (f : Format) {ts : List Token}
    (hts : ∀ t ∈ ts, t.toLexeme.WellFormed) :
    Line.content f (ts.map .token) = spellAll (spaced f ts) := by
  cases ts with
  | nil => rfl
  | cons t ts =>
    have ht := hts t (by simp)
    have h := Pen.foldl_put_tokens (f := f) [] ht fun u hu => hts u (List.mem_cons_of_mem t hu)
    have hgap : Pen.gap f {} (.token t) = false := by cases f <;> rfl
    rw [Line.content, List.map_cons, List.foldl_cons, Pen.put, hgap]
    simpa [Piece.text] using h

end C

/-! ## Neighbours in a line -/

namespace Token

def isOperator : Token → Bool
  | operator _ => true
  | _ => false

/-- An operator between two operands. -/
def isBinary : Token → Bool
  | .not => false
  | operator _ => true
  | _ => false

/-- Whether a token is read as a run of letters and digits. -/
def isRun : Token → Bool
  | id _ | number _ | keyword _ => true
  | _ => false

theorem isWordChar_of_isRun {t : Token} (ht : t.toLexeme.WellFormed) (hr : t.isRun = true) :
    ∀ c ∈ t.toC.toList, isWordChar c = true := by
  cases t with
  | id x => exact ht.all_isWordChar
  | number d => exact fun c hc => isWordChar_of_isDigit (ht.2 c hc)
  | keyword k => exact ht.all_isWordChar
  | _ => cases hr

/-- Both formats part two runs of letters and digits. -/
theorem gapBetween_of_isRun (f : Format) {t u : Token} (ht : t.toLexeme.WellFormed)
    (hu : u.toLexeme.WellFormed) (hrt : t.isRun = true) (hru : u.isRun = true) :
    gapBetween f t u = true := by
  cases f with
  | pretty =>
    cases t <;> cases hrt <;> cases u <;> cases hru <;> rfl
  | compact =>
    have hne := toC_ne_nil ht
    obtain ⟨d, ds, hd⟩ := List.exists_cons_of_ne_nil (toC_ne_nil hu)
    have hlast := isWordChar_of_isRun ht hrt _ (List.getLast_mem hne)
    have hfirst := isWordChar_of_isRun hu hru d (by simp [hd])
    simp [gapBetween, List.getLast?_eq_some_getLast hne, hd, runTogether, hlast, hfirst]

/-- Marks and texts need no blank before a run of letters and digits. -/
theorem meets_of_isRun {t u : Token} (ht : t.toLexeme.WellFormed) (hu : u.toLexeme.WellFormed)
    (hrt : t.isRun = false) (hru : u.isRun = true) : t.toLexeme.Meets u.toLexeme := by
  have hmark : ∀ m, m ≠ "." → (Lexeme.mark m).Meets u.toLexeme := by
    intro m hm
    cases u with
    | id x => exact Lexeme.mark_meets_word hu
    | number d => exact Lexeme.mark_meets_number hm hu.2
    | keyword k => exact Lexeme.mark_meets_word hu
    | _ => cases hru
  cases t with
  | eof | newline | unknown => exact ht.elim
  | id | number | keyword => cases hrt
  | str text => exact Lexeme.text_meets
  | punctuation m => exact hmark _ (by cases m <;> decide)
  | operator op => exact hmark _ (by rcases op with _ | _ | op | op <;> (try cases op) <;> decide)

/-- Only an operator runs into a binary operator behind it. -/
theorem meets_of_isBinary {t u : Token} (ht : t.toLexeme.WellFormed) (hot : t.isOperator = false)
    {op : Operator} (hu : u = .operator op) : t.toLexeme.Meets u.toLexeme := by
  subst hu
  have hm : (Token.operator op).toC ∈ marks := op.toC_mem_marks
  cases t with
  | eof | newline | unknown => exact ht.elim
  | id x => exact Lexeme.word_meets_mark hm
  | keyword k => exact Lexeme.word_meets_mark hm
  | number d =>
    refine Lexeme.number_meets_mark hm ?_
    rcases op with _ | _ | op | op <;> (try cases op) <;> decide
  | str text => exact Lexeme.text_meets
  | punctuation m =>
    refine Lexeme.mark_meets_of_solitary ?_ ?_ _
    · cases m <;> decide +kernel
    · cases m <;> decide
  | operator op => cases hot

/-- Two neighbours in a line are parted by a blank or stay apart without it. -/
theorem gap_or_meets (f : Format) {t u : Token} (ht : t.toLexeme.WellFormed)
    (hu : u.toLexeme.WellFormed) (h : t.isOperator = true → u.isBinary = false) :
    gapBetween f t u = true ∨ t.toLexeme.Meets u.toLexeme := by
  by_cases hru : u.isRun = true
  · by_cases hrt : t.isRun = true
    · exact Or.inl (gapBetween_of_isRun f ht hu hrt hru)
    · exact Or.inr (meets_of_isRun ht hu (by simpa using hrt) hru)
  · refine Or.inr ?_
    cases u with
    | eof | newline | unknown => exact hu.elim
    | id | number | keyword => exact absurd rfl hru
    | str text => exact Lexeme.meets_of_mem_boundaries ht rfl
    | punctuation m =>
      refine Lexeme.meets_of_mem_boundaries ht ?_
      cases m <;> decide
    | operator op =>
      by_cases hot : t.isOperator = true
      · have hop : op = .not := by
          have hb := h hot
          cases op <;> first | rfl | cases hb
        subst hop
        refine Lexeme.meets_of_mem_boundaries ht ?_
        decide
      · exact meets_of_isBinary ht (by simpa using hot) rfl

end Token

/-! ## Expressions and conditions -/

/-- Operators stand behind an operand and, unless they negate, before one. -/
structure Phrased (ts : List Token) : Prop where
  ne_nil : ts ≠ []
  chain : ts.IsChain fun t u => t.isOperator = true → u.isBinary = false
  first : ∀ t ∈ ts.head?, t.isBinary = false
  last : ∀ t ∈ ts.getLast?, t.isOperator = false

namespace Phrased

theorem single {t : Token} (ht : t.isOperator = false) : Phrased [t] where
  ne_nil := by simp
  chain := .singleton t
  first := by
    rintro u ⟨⟩
    cases t <;> first | rfl | cases ht
  last := by
    rintro u ⟨⟩
    exact ht

theorem append {ts us : List Token} (ht : Phrased ts) (hu : Phrased us) : Phrased (ts ++ us) where
  ne_nil := by simp [ht.ne_nil]
  chain := by
    refine List.isChain_append.mpr ⟨ht.chain, hu.chain, ?_⟩
    intro t htl u _ hop
    simp [ht.last t htl] at hop
  first := by
    rw [List.head?_append_of_ne_nil _ ht.ne_nil]
    exact ht.first
  last := by
    rw [List.getLast?_append_of_ne_nil _ hu.ne_nil]
    exact hu.last

/-- A binary operator joins two operands. -/
theorem join {ts us : List Token} (ht : Phrased ts) (hu : Phrased us) (op : Operator) :
    Phrased (ts ++ .operator op :: us) where
  ne_nil := by simp
  chain := by
    refine List.isChain_append.mpr ⟨ht.chain, ?_, ?_⟩
    · exact List.isChain_cons.mpr ⟨fun u h _ => hu.first u h, hu.chain⟩
    · intro t htl u _ hop
      simp [ht.last t htl] at hop
  first := by
    rw [List.head?_append_of_ne_nil _ ht.ne_nil]
    exact ht.first
  last := by
    rw [List.getLast?_append_of_ne_nil _ (by simp), List.getLast?_cons_of_ne_nil hu.ne_nil]
    exact hu.last

theorem parens {ts : List Token} (ht : Phrased ts) :
    Phrased (.openParen :: (ts ++ [.closeParen])) :=
  (single rfl).append (ht.append (single rfl))

theorem negated {ts : List Token} (ht : Phrased ts) (n : Bool) :
    Phrased (Condition.sign n ++ ts) := by
  cases n with
  | false => exact ht
  | true =>
    refine ⟨by simp [Condition.sign], ?_, ?_, ?_⟩
    · exact List.isChain_cons.mpr ⟨fun u h _ => ht.first u h, ht.chain⟩
    · rintro t ⟨⟩
      rfl
    · intro t h
      exact ht.last t (by rwa [← List.getLast?_cons_of_ne_nil ht.ne_nil])

end Phrased

mutual

theorem Factor.phrased (f : Factor) : Phrased f.tokens := by
  cases f with
  | number n s => exact .single rfl
  | var x s => exact .single rfl
  | group e s => simpa using e.phrased.parens

theorem Expr.phrased (e : Expr) : Phrased e.tokens := by
  cases e with
  | factor f => exact f.phrased
  | binary left op right => simpa using left.phrased.join right.phrased (.arithmetic op)

end

theorem Operand.phrased (x : Operand) : Phrased [x.token] := by
  cases x <;> exact .single rfl

theorem Condition.phrased (c : Condition) : Phrased c.tokens := by
  induction c with
  | simple n x => simpa using x.phrased.negated n
  | compare n x op y => simpa using (x.phrased.join y.phrased (.comparison op)).negated n
  | group n c ih => simpa using ih.parens.negated n
  | groupThen n c op d ihc ihd =>
    have h := (ihc.parens.join ihd (.comparison op)).negated n
    simpa using h

namespace C

theorem parted_spaced (f : Format) {ts : List Token} (hts : ∀ t ∈ ts, t.toLexeme.WellFormed)
    (h : ts.IsChain fun t u => t.isOperator = true → u.isBinary = false) :
    Parted (spaced f ts) := by
  induction ts with
  | nil => exact .nil
  | cons t ts ih =>
    cases ts with
    | nil => exact .singleton _
    | cons u ts =>
      obtain ⟨htu, hrest⟩ := List.isChain_cons_cons.mp h
      have hp := ih (fun v hv => hts v (List.mem_cons_of_mem t hv)) hrest
      have hgap := Token.gap_or_meets f (hts t (by simp)) (hts u (by simp)) htu
      cases ts with
      | nil => exact List.isChain_cons_cons.mpr ⟨hgap, hp⟩
      | cons v ts => exact List.isChain_cons_cons.mpr ⟨hgap, hp⟩

end C

end BareBones
