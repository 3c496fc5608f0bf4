import BareBones.Proofs.Insertion
import BareBones.Proofs.Rereading

/-!
Trees written as text. The tokens of a tree with a blank between each two of them are
a text that has exactly these tokens (`Source.words_spaced`), so statements whose
names and texts can be written and whose declarations are in order are read back
unchanged (`Source.parse_written`).
-/

namespace BareBones

/-! ## Tokens with blanks between them -/

/-- The characters of the tokens, a blank between each two of them. -/
def Token.spaced : List Token → List Char
  | [] => []
  | [t] => t.raw
  | t :: u :: w => t.raw ++ ' ' :: Token.spaced (u :: w)

/-- A token other than layout, with the characters of its class. -/
def Token.Writable : Token → Prop
  | eof | newline | unknown _ => False
  | t => t.WellFormed

namespace Token.Writable

variable {t : Token}

theorem whole (h : t.Writable) : t.Whole := by
  cases t <;> first | exact h.elim | exact h

theorem ne_eof (h : t.Writable) : t ≠ .eof := by
  rintro rfl
  exact h

theorem ne_newline (h : t.Writable) : t ≠ .newline := by
  rintro rfl
  exact h

theorem not_isOpenText (h : t.Writable) : ¬ t.IsOpenText := by
  cases t with
  | unknown u => exact h.elim
  | _ => exact False.elim

end Token.Writable

/-- A token that takes its own characters and no layout behind them. -/
structure Token.Separable (t : Token) : Prop where
  ne_eof : t ≠ .eof
  whole : t.Whole
  closed : ¬ t.IsOpenText

theorem Token.Writable.separable {t : Token} (h : t.Writable) : t.Separable :=
  ⟨h.ne_eof, h.whole, h.not_isOpenText⟩

namespace Segment

/-- The tokens behind each other, `gap` before the first and a blank before any other. -/
def spaced (gap : List Char) : List Token → List Segment
  | [] => [⟨[], .eof⟩]
  | t :: w => ⟨gap, t⟩ :: spaced [' '] w

theorem spaced_tokens (gap : List Char) (w : List Token) :
    (spaced gap w).map (·.token) = w ++ [.eof] := by
  induction w generalizing gap with
  | nil => rfl
  | cons t w ih => simp [spaced, ih]

theorem text_spaced (w : List Token) : text (spaced [] w) = Token.spaced w := by
  fun_induction Token.spaced w with
  | case1 => rfl
  | case2 t => simp [spaced, Token.raw]
  | case3 t u w ih =>
    rw [← ih]
    simp [spaced]

end Segment

/-- A blank keeps two tokens apart. -/
theorem Cut.spaced {w : List Token} (h : ∀ t ∈ w, t.Separable) {gap : List Char}
    (hgap : ∀ c ∈ gap, Cursor.isBlank c = true) : Cut (Segment.spaced gap w) := by
  induction w generalizing gap with
  | nil => exact .last (.nil _)
  | cons t w ih =>
    obtain ⟨ht, hw⟩ := List.forall_mem_cons.mp h
    have hbefore : IsGap gap t := ⟨gap, [], by simp, hgap, Or.inl rfl⟩
    have hends : ∀ c ∈ (Segment.text (Segment.spaced [' '] w)).head?, t.EndsBefore c := by
      cases w with
      | nil => simp [Segment.spaced, Token.raw]
      | cons u w =>
        have hblank : Filler [' '] := .blank rfl .nil
        simpa [Segment.spaced] using hblank.endsBefore ht.closed
    exact .cons ht.ne_eof hbefore ht.whole hends (ih hw (List.forall_mem_singleton.mpr rfl))

/-- A text of tokens with blanks between them has these tokens. -/
theorem Source.tokens_spaced (name : String) {w : List Token} (h : ∀ t ∈ w, t.Separable) :
    (Source.mk name (String.ofList (Token.spaced w))).tokens.map (·.val) = w ++ [.eof] := by
  have hcut : Cut (Segment.spaced [] w) := .spaced h (by simp)
  have hsegments := Source.segments_eq_of_cut
    (s := ⟨name, String.ofList (Token.spaced w)⟩) hcut (by simp [Segment.text_spaced])
  rw [← Source.segments_tokens, ← hsegments, Segment.spaced_tokens]

/-- None of them is lost as layout, unless it is a newline. -/
theorem Source.words_spaced (name : String) {w : List Token} (h : ∀ t ∈ w, t.Writable) :
    (Source.mk name (String.ofList (Token.spaced w))).words = w := by
  have htokens := Source.tokens_spaced name fun t ht => (h t ht).separable
  have hwords := Source.words_segments (Source.mk name (String.ofList (Token.spaced w)))
  have hkept : w.filter (· ≠ .newline) = w :=
    List.filter_eq_self.mpr fun t ht => decide_eq_true (h t ht).ne_newline
  rw [Segment.words, Source.segments_tokens, htokens, List.filter_append, hkept] at hwords
  exact (List.append_cancel_right hwords).symm

/-! ## The tokens of a tree -/

/-- Words that are no names. -/
def reservedWords : List String := "and" :: "or" :: Keyword.all.map Keyword.word

theorem Token.ofWord_of_notMem {x : String} (h : x ∉ reservedWords) : Token.ofWord x = .id x := by
  simp only [reservedWords, List.mem_cons, List.mem_map, not_or, not_exists, not_and] at h
  obtain ⟨hand, hor, hkeywords⟩ := h
  have hand : x ≠ Comparison.and.symbol := hand
  have hor : x ≠ Comparison.or.symbol := hor
  have hk : Keyword.ofWord? x = none := by
    rw [Keyword.ofWord?, List.find?_eq_none]
    intro k hk
    simpa using hkeywords k hk
  rw [Token.ofWord, if_neg hand, if_neg hor, hk]

/-- What a token of a tree can be. -/
def Token.InTree : Token → Prop
  | number d => ∃ n : Literal, n.numeral = d
  | eof | newline | unknown _ => False
  | _ => True

@[simp] theorem Literal.token_inTree (n : Literal) : n.token.InTree := ⟨n, rfl⟩

@[simp] theorem Token.inTree_id (x : String) : (Token.id x).InTree := trivial

@[simp] theorem Token.inTree_str (raw : String) : (Token.str raw).InTree := trivial

@[simp] theorem Token.inTree_punctuation (m : Punctuation) : (Token.punctuation m).InTree := trivial

@[simp] theorem Token.inTree_operator (op : Operator) : (Token.operator op).InTree := trivial

@[simp] theorem Token.inTree_keyword (k : Keyword) : (Token.keyword k).InTree := trivial

mutual

theorem Factor.tokens_inTree (f : Factor) : ∀ t ∈ f.tokens, t.InTree := by
  cases f with
  | number n s => simp
  | var x s => simp
  | group e s => simpa [or_imp, forall_and] using e.tokens_inTree

theorem Expr.tokens_inTree (e : Expr) : ∀ t ∈ e.tokens, t.InTree := by
  cases e with
  | factor f => exact f.tokens_inTree
  | binary left op right =>
    rw [Expr.tokens_binary, List.forall_mem_append, List.forall_mem_cons]
    exact ⟨left.tokens_inTree, trivial, right.tokens_inTree⟩

end

@[simp] theorem Operand.token_inTree (x : Operand) : x.token.InTree := by
  cases x <;> simp [Operand.token]

@[simp] theorem Bound.token_inTree (b : Bound) : b.token.InTree := by
  cases b <;> simp [Bound.token]

@[simp] theorem PrintArg.token_inTree (a : PrintArg) : a.token.InTree := by
  cases a <;> simp [PrintArg.token]

theorem Condition.sign_inTree (n : Bool) : ∀ t ∈ Condition.sign n, t.InTree := by
  cases n <;> simp [sign]

theorem Condition.tokens_inTree (c : Condition) : ∀ t ∈ c.tokens, t.InTree := by
  induction c with
  | simple n x => simpa [or_imp, forall_and] using sign_inTree n
  | compare n x op y => simpa [or_imp, forall_and] using sign_inTree n
  | group n c ih =>
    simp only [tokens_group, List.forall_mem_append, List.forall_mem_cons]
    exact ⟨sign_inTree n, trivial, ih, by simp⟩
  | groupThen n c op d ihc ihd =>
    simp only [tokens_groupThen, List.forall_mem_append, List.forall_mem_cons]
    exact ⟨sign_inTree n, trivial, ihc, trivial, trivial, ihd⟩

theorem PrintArg.further_inTree (args : List (Located PrintArg)) :
    ∀ t ∈ PrintArg.furtherTokens args, t.InTree := by
  induction args with
  | nil => simp [furtherTokens]
  | cons a args ih =>
    rw [furtherTokens, List.flatMap_cons, List.forall_mem_append]
    exact ⟨by simp, ih⟩

theorem Condition.guard_inTree (k : Keyword) (c : Condition) : ∀ t ∈ c.guard k, t.InTree := by
  simpa [Condition.guard, or_imp, forall_and] using c.tokens_inTree

theorem braced_inTree {w : List Token} (h : ∀ t ∈ w, t.InTree) : ∀ t ∈ braced w, t.InTree := by
  simpa [braced, or_imp, forall_and] using h

mutual

theorem Statement.tokens_inTree (s : Statement) : ∀ t ∈ s.tokens, t.InTree := by
  cases s with
  | declare x value =>
    cases value with
    | none => simp [Statement.tokens]
    | some e => simpa [Statement.tokens, or_imp, forall_and] using e.tokens_inTree
  | assign x e => simpa [Statement.tokens, or_imp, forall_and] using e.tokens_inTree
  | ifThen c body =>
    rw [Statement.tokens, List.forall_mem_append]
    exact ⟨c.guard_inTree .if_, braced_inTree (Statement.tokensAll_inTree body)⟩
  | ifElse c body otherwise =>
    rw [Statement.tokens, List.forall_mem_append, List.forall_mem_append, List.forall_mem_cons]
    exact ⟨⟨c.guard_inTree .if_, braced_inTree (Statement.tokensAll_inTree body)⟩, trivial,
      braced_inTree (Statement.tokensAll_inTree otherwise)⟩
  | whileDo c body =>
    rw [Statement.tokens, List.forall_mem_append]
    exact ⟨c.guard_inTree .while_, braced_inTree (Statement.tokensAll_inTree body)⟩
  | dotimes b body =>
    rw [Statement.tokens, List.forall_mem_append]
    exact ⟨by simp, braced_inTree (Statement.tokensAll_inTree body)⟩
  | print first more =>
    simpa [Statement.tokens, or_imp, forall_and] using PrintArg.further_inTree more
  | read x => simp [Statement.tokens]

theorem Statement.tokensAll_inTree (ss : List Statement) :
    ∀ t ∈ Statement.tokensAll ss, t.InTree := by
  cases ss with
  | nil => simp [Statement.tokensAll]
  | cons s rest =>
    rw [Statement.tokensAll, List.forall_mem_append]
    exact ⟨s.tokens_inTree, Statement.tokensAll_inTree rest⟩

end

/-! ## Writing and reading -/

/-- Statements that can be written: their names are words that are not reserved, their
texts fit between quotes, and each name is declared once and before it is used. What
numbers, expressions, conditions and arguments look like is in their types. -/
structure Statement.Printable (ss : List Statement) : Prop where
  names : ∀ x, Token.id x ∈ Statement.tokensAll ss → IsName x ∧ x ∉ reservedWords
  texts : ∀ raw, Token.str raw ∈ Statement.tokensAll ss → Quotable raw.toList
  order : NamesInOrder (Statement.mentionsAll ss)

/-- Statements as a text, their tokens with blanks between them. -/
def Statement.written (ss : List Statement) : String :=
  String.ofList (Token.spaced (Statement.tokensAll ss))

theorem Statement.Printable.writable {ss : List Statement} (h : Statement.Printable ss) :
    ∀ t ∈ Statement.tokensAll ss, t.Writable := by
  intro t ht
  have htree := Statement.tokensAll_inTree ss t ht
  cases t with
  | id x =>
    obtain ⟨hname, hfree⟩ := h.names x ht
    exact ⟨hname, Token.ofWord_of_notMem hfree⟩
  | number d =>
    obtain ⟨n, rfl⟩ := htree
    exact toString_digits n.value
  | str raw => exact h.texts raw ht
  | eof | newline | unknown => exact htree.elim
  | _ => trivial

/-- Statements that are written out are read back, up to where they stand, with the
names behind their `let`s as the declarations. -/
theorem Source.parse_written {ss : List Statement} (h : Statement.Printable ss) (name : String) :
    ∃ p, (Source.mk name (Statement.written ss)).parse = .ok p ∧
      p.statements.map Statement.erase = ss.map Statement.erase ∧
      p.declarations = Mention.declared (Statement.mentionsAll ss) := by
  have hwritable := h.writable
  have hreads : Progress.Rereads [] ss := Statement.rereadsAll ss h.order
  obtain ⟨q, hq, hadds⟩ := hreads .start trivial rfl
  have hrun := hq.feedAll fun t ht => (hwritable t ht).ne_newline
  have heof := hadds.ready.step_eof hadds.frames (e := ⟨.eof, .nowhere⟩) rfl
  have hparse : Reading.erase Program.erase (Source.mk name (Statement.written ss)).parse =
      .ok q.settle.program := by
    rw [Source.parse_erase, Statement.written, Source.words_spaced name hwritable,
      BareBones.parse, Token.unlocated, List.map_append, Progress.feedAll_append,
      ← Token.unlocated, hrun]
    simp only [Except.bind, List.map_cons, List.map_nil, Progress.feedAll, Progress.feed, heof]
    rfl
  obtain ⟨p, hp, herase⟩ := Reading.erase_eq_ok hparse
  refine ⟨p, hp, ?_, ?_⟩
  · have hs := congrArg Program.statements herase
    have hdone : q.settle.done = (ss.map Statement.erase).reverse ++ [] := hadds.done
    simpa [Program.erase, Progress.program, hdone] using hs
  · have hd := congrArg Program.declarations herase
    simpa [Program.erase, Progress.program, hadds.names] using hd

/-- A negated group before a comparison, a group in a chain, an `else` and a text with
an escaped quote. -/
def Statement.guessing : List Statement :=
  [.declare ⟨"secret", .nowhere⟩ (some (.factor (.number ⟨7, by decide⟩ .nowhere))),
    .declare ⟨"x", .nowhere⟩ none,
    .whileDo (.groupThen true (.compare false (.var "x") .equal (.var "secret")) .and
        (.compare true (.var "x") .less (.number ⟨9, by decide⟩)))
      [.read ⟨"x", .nowhere⟩,
        .ifElse (.group false (.simple true (.var "x")))
          [.print ⟨.text "\\\"?", .nowhere⟩ [⟨.var "x", .nowhere⟩]]
          [.assign ⟨"x", .nowhere⟩ (.binary (.factor (.group (.binary (.factor (.var "x" .nowhere))
            .sub (.number ⟨1, by decide⟩ .nowhere)) .nowhere)) .div (.var "secret" .nowhere))]]]

def Token.name? : Token → Option String
  | id x => some x
  | _ => none

def Token.text? : Token → Option String
  | str raw => some raw
  | _ => none

theorem Source.parse_written_guessing :
    Statement.Printable Statement.guessing ∧
    ∃ p, (Source.mk "guessing" (Statement.written Statement.guessing)).parse = .ok p ∧
      p.statements.map Statement.erase = Statement.guessing.map Statement.erase ∧
      p.declarations = Mention.declared (Statement.mentionsAll Statement.guessing) := by
  have hnames : ∀ x ∈ (Statement.tokensAll Statement.guessing).filterMap Token.name?,
      x ∈ ["secret", "x"] := by
    decide +kernel
  have htexts : ∀ raw ∈ (Statement.tokensAll Statement.guessing).filterMap Token.text?,
      raw = "\\\"?" := by
    decide +kernel
  have hprintable : Statement.Printable Statement.guessing := by
    refine ⟨?_, ?_, by decide +kernel⟩
    · intro x hx
      have hx' := hnames x (List.mem_filterMap.mpr ⟨_, hx, rfl⟩)
      simp only [List.mem_cons, List.not_mem_nil, or_false] at hx'
      rcases hx' with rfl | rfl
      · exact ⟨.of_all rfl (by decide), by decide⟩
      · exact ⟨.of_all rfl (by decide), by decide⟩
    · intro raw hraw
      obtain rfl := htexts raw (List.mem_filterMap.mpr ⟨_, hraw, rfl⟩)
      exact .escape (by decide) (.plain (by decide) (by decide) (by decide) .nil)
  exact ⟨hprintable, Source.parse_written hprintable "guessing"⟩

end BareBones
