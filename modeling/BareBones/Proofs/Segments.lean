import BareBones.Proofs.Munch

/-!
A text and its tokens. A segment is a token with the layout that stands before
it, and `Cut` says without the reader how a text has to be cut into segments:
each token takes the characters of its class, ends where the next character can
be no part of it, and only blanks and comments lie between two tokens. The reader
cuts a text in this way (`Source.segments_cut`), and there is no other way to do it
(`Source.segments_eq_of_cut`).
-/

namespace BareBones

/-! ## How a text is to be cut -/

/-- A token and the layout before it. -/
structure Segment where
  gap : List Char
  token : Token
deriving DecidableEq

namespace Segment

def chars (g : Segment) : List Char := g.gap ++ g.token.raw

def text (gs : List Segment) : List Char := gs.flatMap chars

@[simp] theorem text_nil : text [] = [] := rfl

@[simp] theorem text_cons (g : Segment) (gs : List Segment) :
    text (g :: gs) = g.gap ++ (g.token.raw ++ text gs) := by
  simp [text, chars]

@[simp] theorem text_append (gs hs : List Segment) : text (gs ++ hs) = text gs ++ text hs :=
  List.flatMap_append

end Segment

/-- Layout before the token `t`: blanks, and a comment behind them if the line or
the text ends with it. -/
def IsGap (cs : List Char) (t : Token) : Prop :=
  ∃ blanks comment, cs = blanks ++ comment ∧ (∀ c ∈ blanks, Cursor.isBlank c = true) ∧
    (comment = [] ∨ ∃ body, comment = '#' :: body ∧ '\n' ∉ body ∧ (t = .newline ∨ t = .eof))

/-- The segments are those that their text has to be cut into. -/
inductive Cut : List Segment → Prop
  | last {gap : List Char} : IsGap gap .eof → Cut [⟨gap, .eof⟩]
  | cons {gap : List Char} {t : Token} {gs : List Segment} : t ≠ .eof → IsGap gap t → t.Whole →
      (∀ c ∈ (Segment.text gs).head?, t.EndsBefore c) → Cut gs → Cut (⟨gap, t⟩ :: gs)

/-! ## Segments of a text -/

namespace Cursor

/-- What is passed over before the next token, and the token. -/
def segment (k : Cursor) : Segment :=
  ⟨k.rest.take (k.rest.length - k.skipped.rest.length), k.next.1.val⟩

/-- The segments of the text from here on. -/
def segments (k : Cursor) : List Segment :=
  if k.next.1.val = .eof then [k.segment] else k.segment :: k.next.2.segments
termination_by k.rest.length
decreasing_by exact next_rest_length_lt k ‹_›

theorem skip_blanks (here : Position) {blanks : List Char}
    (h : ∀ c ∈ blanks, isBlank c = true) (cs : List Char) :
    skip false here (blanks ++ cs) = skip false (here.afterAll blanks) cs := by
  induction blanks generalizing here with
  | nil => rfl
  | cons c blanks ih =>
    obtain ⟨hc, hblanks⟩ := List.forall_mem_cons.mp h
    have hn : c ≠ '\n' := by rintro rfl; revert hc; decide
    have hh : c ≠ '#' := by rintro rfl; revert hc; decide
    rw [List.cons_append, skip, if_pos (by simp [hn, hc]), Position.afterAll_cons, ← ih _ hblanks]
    simp [hh]

theorem skip_comment (here : Position) {body : List Char} (h : '\n' ∉ body) (cs : List Char) :
    skip true here (body ++ cs) = skip true (here.afterAll body) cs := by
  induction body generalizing here with
  | nil => rfl
  | cons c body ih =>
    simp only [List.mem_cons, not_or] at h
    obtain ⟨hc, hbody⟩ := h
    rw [List.cons_append, skip, if_pos (by simp [Ne.symm hc]), Position.afterAll_cons, ← ih _ hbody]
    simp

/-- The next token begins here. -/
theorem skip_eq_self (here : Position) {cs : List Char}
    (h : ∀ c ∈ cs.head?, isBlank c = false ∧ c ≠ '#') : skip false here cs = ⟨here, cs⟩ := by
  cases cs with
  | nil => rfl
  | cons c cs =>
    obtain ⟨hb, hh⟩ := h c rfl
    simp [skip, hb, hh]

theorem skip_true_eq_self (here : Position) {cs : List Char} (h : ∀ c ∈ cs.head?, c = '\n') :
    skip true here cs = ⟨here, cs⟩ := by
  cases cs with
  | nil => rfl
  | cons c cs =>
    obtain rfl := h c rfl
    simp [skip]

end Cursor

theorem IsGap.nil (t : Token) : IsGap [] t := ⟨[], [], rfl, by simp, Or.inl rfl⟩

theorem IsGap.blank {c : Char} {cs : List Char} {t : Token} (hc : Cursor.isBlank c = true)
    (h : IsGap cs t) : IsGap (c :: cs) t := by
  obtain ⟨blanks, comment, rfl, hb, hcomment⟩ := h
  exact ⟨c :: blanks, comment, rfl, List.forall_mem_cons.mpr ⟨hc, hb⟩, hcomment⟩

theorem IsGap.comment {body : List Char} {t : Token} (hb : '\n' ∉ body)
    (ht : t = .newline ∨ t = .eof) : IsGap ('#' :: body) t :=
  ⟨[], '#' :: body, rfl, by simp, Or.inr ⟨body, rfl, hb, ht⟩⟩

/-- The layout before a token is passed over. -/
theorem IsGap.skip {gap rest : List Char} {t : Token} (h : IsGap gap t) (hw : t.Whole)
    (ht : t = .eof → rest = []) (here : Position) :
    Cursor.skip false here (gap ++ (t.raw ++ rest)) = ⟨here.afterAll gap, t.raw ++ rest⟩ := by
  obtain ⟨blanks, comment, rfl, hb, rfl | ⟨body, rfl, hbody, hend⟩⟩ := h
  · have hhead : ∀ c ∈ (t.raw ++ rest).head?, Cursor.isBlank c = false ∧ c ≠ '#' := by
      by_cases he : t = .eof
      · simp [he, Token.raw, ht he]
      · obtain ⟨c, cs, hraw, hc⟩ := hw.raw_eq_cons he
        simp [hraw, hc]
    rw [List.append_nil, Cursor.skip_blanks here hb, Cursor.skip_eq_self _ hhead]
  · have hhead : ∀ c ∈ (t.raw ++ rest).head?, c = '\n' := by
      rcases hend with rfl | rfl
      · simp [Token.raw]
      · simp [Token.raw, ht rfl]
    rw [List.append_assoc, Cursor.skip_blanks here hb, List.cons_append, Cursor.skip,
      if_pos (by simp), Position.afterAll_append, Position.afterAll_cons]
    simp [Cursor.skip_comment _ hbody, Cursor.skip_true_eq_self _ hhead]

/-- Before any token there is nothing but layout. -/
theorem Cursor.exists_gap (here : Position) (cs : List Char) :
    ∃ gap rest, cs = gap ++ rest ∧ skip false here cs = ⟨here.afterAll gap, rest⟩ ∧
      IsGap gap (Munch.ofChars rest).token ∧
      ∀ c ∈ rest.head?, isBlank c = false ∧ c ≠ '#' := by
  induction cs generalizing here with
  | nil => exact ⟨[], [], rfl, rfl, .nil _, by simp⟩
  | cons c cs ih =>
    by_cases hb : isBlank c = true
    · obtain ⟨gap, rest, rfl, hskip, hgap, hrest⟩ := ih (here.after c)
      refine ⟨c :: gap, rest, rfl, ?_, hgap.blank hb, hrest⟩
      have hone : ∀ d ∈ [c], isBlank d = true := by simpa using hb
      rw [Position.afterAll_cons, ← hskip]
      exact skip_blanks here hone (gap ++ rest)
    · by_cases hh : c = '#'
      · subst hh
        obtain ⟨body, rest, rfl, hbody, hrest⟩ :
            ∃ body rest, cs = body ++ rest ∧ '\n' ∉ body ∧ ∀ c ∈ rest.head?, c = '\n' := by
          refine ⟨cs.takeWhile (· ≠ '\n'), cs.dropWhile (· ≠ '\n'), by simp, ?_, ?_⟩
          · intro hmem
            simpa using List.all_eq_true.mp List.all_takeWhile _ hmem
          · intro c hc
            simpa using Munch.head?_dropWhile_eq_false cs c hc
        refine ⟨'#' :: body, rest, rfl, ?_, .comment hbody ?_, ?_⟩
        · rw [skip, if_pos (by simp), Position.afterAll_cons]
          simp [skip_comment _ hbody, skip_true_eq_self _ hrest]
        · cases rest with
          | nil => exact Or.inr rfl
          | cons d ds =>
            obtain rfl := hrest d rfl
            exact Or.inl rfl
        · intro d hd
          obtain rfl := hrest d hd
          decide
      · have hhead : ∀ d ∈ (c :: cs).head?, isBlank d = false ∧ d ≠ '#' := by
          simp [hb, hh]
        exact ⟨[], c :: cs, rfl, skip_eq_self here hhead, .nil _, hhead⟩

namespace Cursor

/-- A token that is to be cut off here is the next one. -/
theorem next_of_gap {k : Cursor} {gap rest : List Char} {t : Token}
    (hk : k.rest = gap ++ (t.raw ++ rest)) (hg : IsGap gap t) (hw : t.Whole) (hne : t ≠ .eof)
    (hr : ∀ c ∈ rest.head?, t.EndsBefore c) :
    k.segment = ⟨gap, t⟩ ∧ k.next.1.val = t ∧ k.next.2.rest = rest := by
  have hskip : k.skipped = ⟨k.here.afterAll gap, t.raw ++ rest⟩ := by
    rw [skipped, hk, hg.skip hw (fun h => absurd h hne)]
  have hmunch := hw.ofChars_eq hne hr
  have hnext : k.next.1.val = t := by simp only [next, hskip, hmunch]
  refine ⟨?_, hnext, by simp only [next, hskip, hmunch]⟩
  rw [segment, hskip, hnext, hk]
  simp

theorem next_of_last_gap {k : Cursor} {gap : List Char} (hk : k.rest = gap)
    (hg : IsGap gap .eof) : k.segment = ⟨gap, .eof⟩ ∧ k.next.1.val = .eof := by
  have hskip : k.skipped = ⟨k.here.afterAll gap, []⟩ := by
    have h : skip false k.here (gap ++ (Token.eof.raw ++ [])) = _ :=
      hg.skip trivial (fun _ => rfl) k.here
    rw [skipped, hk]
    simpa [Token.raw] using h
  have hnext : k.next.1.val = .eof := by
    simp only [next, hskip]
    rfl
  refine ⟨?_, hnext⟩
  rw [segment, hskip, hnext, hk]
  simp

/-- The next token is to be cut off here. -/
theorem next_exact (k : Cursor) : ∃ gap t rest, k.rest = gap ++ (t.raw ++ rest) ∧
    k.segment = ⟨gap, t⟩ ∧ k.next.1 = ⟨t, k.here.afterAll gap,
      (k.here.afterAll gap).afterAll t.raw.dropLast⟩ ∧
    k.next.2 = ⟨k.here.afterAll (gap ++ t.raw), rest⟩ ∧ IsGap gap t ∧ t.Whole ∧
    (t = .eof → rest = []) ∧ ∀ c ∈ rest.head?, t.EndsBefore c := by
  obtain ⟨gap, rest, hcs, hskip, hgap, hhead⟩ := exists_gap k.here k.rest
  have hexact := Munch.ofChars_exact hhead
  have hskipped : k.skipped = ⟨k.here.afterAll gap, rest⟩ := hskip
  have happend := Munch.ofChars_raw_append_rest rest
  rw [hexact.raw] at happend
  refine ⟨gap, (Munch.ofChars rest).token, (Munch.ofChars rest).rest, by rw [happend, hcs], ?_,
    ?_, ?_, hgap, hexact.whole, ?_, hexact.ends⟩
  · rw [segment, hskipped, hcs]
    simp [next, hskipped]
  · simp only [next, hskipped, hexact.raw]
  · simp only [next, hskipped, hexact.raw, Position.afterAll_append]
  · -- any other text gives at least one character to its first token
    intro ht
    cases rest with
    | nil => rfl
    | cons c cs =>
      have hraw : (Munch.startingWith c cs).raw = [] := by
        have h := hexact.raw
        rw [ht] at h
        exact h
      exact absurd hraw (Munch.startingWith_raw_ne_nil c cs)

/-- There is no other way to cut a text. -/
theorem segments_of_cut {gs : List Segment} (h : Cut gs) {k : Cursor}
    (hk : k.rest = Segment.text gs) : k.segments = gs := by
  induction h generalizing k with
  | last hg =>
    obtain ⟨hs, hv⟩ := next_of_last_gap (k := k) (by simpa [Token.raw] using hk) hg
    rw [segments, if_pos hv, hs]
  | cons hne hg hw hr _ ih =>
    obtain ⟨hs, hv, hrest⟩ := next_of_gap (by simpa using hk) hg hw hne hr
    rw [segments, if_neg (by rwa [hv]), hs, ih hrest]

/-- The reader cuts a text as it has to be cut, and loses nothing of it. -/
theorem segments_cut (k : Cursor) : Cut k.segments ∧ Segment.text k.segments = k.rest := by
  fun_induction segments k with
  | case1 k he =>
    obtain ⟨gap, t, rest, hrest, hs, hnext, -, hg, -, heof, -⟩ := k.next_exact
    obtain rfl : t = .eof := by rwa [hnext] at he
    obtain rfl := heof rfl
    rw [hs, hrest]
    exact ⟨.last hg, by simp⟩
  | case2 k hne ih =>
    obtain ⟨gap, t, rest, hrest, hs, hnext, hk, hg, hw, -, hends⟩ := k.next_exact
    have ht : t ≠ .eof := by rwa [hnext] at hne
    obtain ⟨hcut, htext⟩ := ih
    rw [hk] at htext
    rw [hs, hrest, Segment.text_cons, hk, htext]
    refine ⟨.cons ht hg hw ?_ (hk ▸ hcut), rfl⟩
    rwa [htext]

/-- The tokens found later stand behind those already seen. -/
theorem tokensFrom_eq (seen : List (Located Token)) (k : Cursor) :
    k.tokensFrom seen = seen.reverse ++ k.tokensFrom [] := by
  by_cases he : k.next.1.val = .eof
  · have h (seen : List (Located Token)) : k.tokensFrom seen = (k.next.1 :: seen).reverse := by
      rw [tokensFrom, if_pos he]
    rw [h, h]
    simp
  · have h (seen : List (Located Token)) :
        k.tokensFrom seen = k.next.2.tokensFrom (k.next.1 :: seen) := by
      rw [tokensFrom, if_neg he]
    rw [h, h, tokensFrom_eq (k.next.1 :: seen), tokensFrom_eq [k.next.1]]
    simp
termination_by k.rest.length
decreasing_by all_goals exact next_rest_length_lt k he

/-- The tokens from here on. -/
theorem tokensFrom_nil (k : Cursor) : k.tokensFrom [] =
    if k.next.1.val = .eof then [k.next.1] else k.next.1 :: k.next.2.tokensFrom [] := by
  rw [tokensFrom]
  split
  · rfl
  · rw [tokensFrom_eq]
    rfl

theorem length_tokensFrom_pos (k : Cursor) : 0 < (k.tokensFrom []).length := by
  rw [tokensFrom_nil]
  split <;> simp

theorem map_token_segments (k : Cursor) :
    k.segments.map (·.token) = (k.tokensFrom []).map (·.val) := by
  fun_induction segments k with
  | case1 k he =>
    rw [tokensFrom_nil, if_pos he]
    rfl
  | case2 k hne ih =>
    rw [tokensFrom_nil, if_neg hne, List.map_cons, List.map_cons, ih]
    rfl

/-- The place behind the next `n` tokens. -/
def after (k : Cursor) : Nat → Cursor
  | 0 => k
  | n + 1 => k.next.2.after n

/-- Each token is the answer to asking for the next one. -/
theorem getElem?_tokensFrom (k : Cursor) (i : Nat) (hi : i < (k.tokensFrom []).length) :
    (k.tokensFrom [])[i]? = some (k.after i).next.1 := by
  induction i generalizing k with
  | zero =>
    rw [tokensFrom_nil]
    split <;> rfl
  | succ i ih =>
    rw [tokensFrom_nil] at hi ⊢
    split at hi
    · simp at hi
    · rename_i hne
      rw [if_neg hne, List.getElem?_cons_succ]
      exact ih k.next.2 (by simpa using hi)

/-- Where the text ends is the same wherever one stands in it. -/
theorem next_ending (k : Cursor) :
    k.next.2.here.afterAll k.next.2.rest = k.here.afterAll k.rest := by
  obtain ⟨gap, t, rest, hrest, -, -, hk, -⟩ := k.next_exact
  rw [hk, hrest, ← Position.afterAll_append, List.append_assoc]

theorem next_of_eof {k : Cursor} (he : k.next.1.val = .eof) :
    k.next.1 = ⟨.eof, .point (k.here.afterAll k.rest)⟩ ∧ k.next.2.next.1.val = .eof := by
  obtain ⟨gap, t, rest, hrest, -, hnext, hk, -, -, heof, -⟩ := k.next_exact
  obtain rfl : t = .eof := by rwa [hnext] at he
  obtain rfl := heof rfl
  refine ⟨by rw [hnext, hrest]; simp [Token.raw, Span.point], ?_⟩
  exact (next_of_last_gap (by rw [hk]) (.nil _)).2

/-- Behind the last token there is only the end of the text. -/
theorem after_next_of_length_le (k : Cursor) (i : Nat) (hi : (k.tokensFrom []).length ≤ i + 1) :
    (k.after i).next.1 = ⟨.eof, .point (k.here.afterAll k.rest)⟩ := by
  induction i generalizing k with
  | zero =>
    rw [tokensFrom_nil] at hi
    split at hi
    · rename_i he
      exact (next_of_eof he).1
    · have hpos := k.next.2.length_tokensFrom_pos
      simp only [List.length_cons] at hi
      omega
  | succ i ih =>
    rw [after, ← next_ending]
    apply ih
    rw [tokensFrom_nil] at hi
    split at hi
    · rename_i he
      rw [tokensFrom_nil, if_pos (next_of_eof he).2]
      simp
    · simpa using hi

end Cursor

/-! ## Sources -/

theorem Cut.length_le {gs : List Segment} (h : Cut gs) :
    gs.length ≤ (Segment.text gs).length + 1 := by
  induction h with
  | last => simp
  | cons hne _ hw _ _ ih =>
    obtain ⟨c, cs, hraw, -⟩ := hw.raw_eq_cons hne
    simp only [List.length_cons, Segment.text_cons, List.length_append, hraw]
    omega

namespace Source

/-- The tokens of a source, each with the layout before it. -/
def segments (s : Source) : List Segment := s.cursor.segments

theorem segments_cut (s : Source) : Cut s.segments := s.cursor.segments_cut.1

theorem text_segments (s : Source) : Segment.text s.segments = s.text.toList :=
  s.cursor.segments_cut.2

theorem segments_tokens (s : Source) : s.segments.map (·.token) = s.tokens.map (·.val) :=
  s.cursor.map_token_segments

/-- Segments that are cut as they have to be are those of their text. -/
theorem segments_eq_of_cut {s : Source} {gs : List Segment} (h : Cut gs)
    (ht : Segment.text gs = s.text.toList) : gs = s.segments :=
  (Cursor.segments_of_cut h ht.symm).symm

/-- Asking for one token after the other gives the tokens of the text, at most one
more than there are characters, with `eof` as the last one and as the only answer
from then on. With the layout between them the tokens are the whole text, cut where
each of them has to end, and no other segments are. -/
theorem tokens_exact (s : Source) :
    s.tokens.length ≤ s.text.toList.length + 1 ∧
    (∃ ts e, s.tokens = ts ++ [e] ∧ e.val = .eof ∧ ∀ t ∈ ts, t.val ≠ .eof) ∧
    (∀ i < s.tokens.length, s.tokens[i]? = some (s.cursor.after i).next.1) ∧
    (∀ i, s.tokens.length ≤ i + 1 → (s.cursor.after i).next.1 = ⟨.eof, .point s.ending⟩) ∧
    s.segments.map (·.token) = s.tokens.map (·.val) ∧
    Segment.text s.segments = s.text.toList ∧ Cut s.segments ∧
    ∀ gs, Cut gs → Segment.text gs = s.text.toList → gs = s.segments := by
  refine ⟨?_, ?_, ?_, ?_, s.segments_tokens, s.text_segments, s.segments_cut, ?_⟩
  · have hlen := congrArg List.length s.segments_tokens
    have hcut := s.segments_cut.length_le
    rw [List.length_map, List.length_map] at hlen
    rw [s.text_segments, hlen] at hcut
    exact hcut
  · obtain ⟨ts, e, hs, he, hts⟩ := s.tokens_eq_append
    exact ⟨ts, e, hs, he, fun t ht => (hts t ht).1⟩
  · exact s.cursor.getElem?_tokensFrom
  · exact s.cursor.after_next_of_length_le
  · exact fun gs h ht => segments_eq_of_cut h ht

end Source

end BareBones
