import BareBones.Proofs.C.Occurrences
import BareBones.Proofs.FirstFault
import BareBones.Proofs.Segments
import BareBones.Syntax.Supply

/-!
Reading on demand takes each token once. A reader that takes its tokens from a supply
ends as one that has them all in a list (`Supply.read_result`), and an observer at the
supply sees what it takes (`Supply.observed_read`): the tokens up to the fault, or all of
them up to `eof`, in their order and none of them twice.
-/

namespace BareBones

/-! ## What is taken of a list of tokens -/

/-- The tokens that reading `ts` from `p` on takes. -/
def Progress.taken (p : Progress) : List (Located Token) → List (Located Token)
  | [] => []
  | t :: ts =>
    if t.val = .newline then t :: p.taken ts
    else
      match p.step t with
      | .ok next => t :: next.taken ts
      | .error e => t :: if e.val.isName then Event.lookahead ts else []

namespace Event

theorem lookahead_prefix (ts : List (Located Token)) : lookahead ts <+: ts := by
  induction ts with
  | nil => exact List.prefix_rfl
  | cons t ts ih =>
    rw [lookahead]
    split
    · exact List.cons_prefix_cons.mpr ⟨rfl, ih⟩
    · exact List.cons_prefix_cons.mpr ⟨rfl, List.nil_prefix⟩

/-- Newlines, and one token that is none. -/
theorem lookahead_eq {ts : List (Located Token)} (h : ∃ t ∈ ts, t.val ≠ .newline) :
    ∃ newlines t, lookahead ts = newlines ++ [t] ∧ (∀ u ∈ newlines, u.val = .newline) ∧
      t.val ≠ .newline := by
  induction ts with
  | nil => simp at h
  | cons t ts ih =>
    rw [lookahead]
    split
    · rename_i ht
      have hrest : ∃ u ∈ ts, u.val ≠ .newline := by simpa [ht] using h
      obtain ⟨newlines, u, heq, hall, hu⟩ := ih hrest
      exact ⟨t :: newlines, u, by rw [heq]; rfl, List.forall_mem_cons.mpr ⟨ht, hall⟩, hu⟩
    · rename_i ht
      exact ⟨[], t, rfl, by simp, ht⟩

end Event

namespace Progress

theorem taken_ok {p next : Progress} {t : Located Token} (h : t.val ≠ .newline)
    (hs : p.step t = .ok next) (ts : List (Located Token)) :
    p.taken (t :: ts) = t :: next.taken ts := by
  rw [taken, if_neg h, hs]

theorem taken_error {p : Progress} {t : Located Token} {e : Located ParseError}
    (h : t.val ≠ .newline) (hs : p.step t = .error e) (ts : List (Located Token)) :
    p.taken (t :: ts) = t :: if e.val.isName then Event.lookahead ts else [] := by
  rw [taken, if_neg h, hs]

theorem taken_prefix (p : Progress) (ts : List (Located Token)) : p.taken ts <+: ts := by
  induction ts generalizing p with
  | nil => exact List.prefix_rfl
  | cons t ts ih =>
    rw [taken]
    split
    · exact List.cons_prefix_cons.mpr ⟨rfl, ih p⟩
    · split
      · exact List.cons_prefix_cons.mpr ⟨rfl, ih _⟩
      · refine List.cons_prefix_cons.mpr ⟨rfl, ?_⟩
        split
        · exact Event.lookahead_prefix ts
        · exact List.nil_prefix

/-- What is read without a fault is taken. -/
theorem taken_append {p q : Progress} {before : List (Located Token)}
    (h : p.feedAll before = .ok q) (rest : List (Located Token)) :
    p.taken (before ++ rest) = before ++ q.taken rest := by
  induction before generalizing p with
  | nil =>
    cases h
    rfl
  | cons t before ih =>
    rw [feedAll, feed] at h
    rw [List.cons_append, taken]
    by_cases ht : t.val = .newline
    · simp only [if_pos ht] at h ⊢
      rw [ih h]
      rfl
    · simp only [if_neg ht] at h ⊢
      cases hs : p.step t with
      | ok next =>
        rw [hs] at h
        simp only [ih h]
        rfl
      | error e =>
        rw [hs] at h
        cases h

/-- A reader that finds a fault takes nothing behind it, unless it is one with a name. -/
theorem taken_of_error {p : Progress} {ts : List (Located Token)} {e : Located ParseError}
    (h : p.feedAll ts = .error e) : ∃ before t after q, ts = before ++ t :: after ∧
      t.val ≠ .newline ∧ p.feedAll before = .ok q ∧ q.step t = .error e ∧
      p.taken ts = before ++ t :: if e.val.isName then Event.lookahead after else [] := by
  obtain ⟨before, t, after, q, rfl, hq, ht⟩ := feedAll_eq_error h
  have hne : t.val ≠ .newline := by
    intro hn
    rw [feed, if_pos hn] at ht
    cases ht
  have hstep : q.step t = .error e := by rw [← q.feed_of_ne_newline hne, ht]
  refine ⟨before, t, after, q, rfl, hne, hq, hstep, ?_⟩
  rw [taken_append hq, taken_error hne hstep]

end Progress

/-- Only a name is refused as a name. -/
theorem Progress.exists_id_of_isName {p : Progress} {t : Located Token} {e : Located ParseError}
    (h : p.step t = .error e) (hname : e.val.isName = true) : ∃ x, t.val = .id x := by
  obtain ⟨val, span⟩ := e
  cases val with
  | name n =>
    obtain ⟨x, use, hx, -⟩ := step_eq_name_error h
    exact ⟨x, hx⟩
  | _ => cases hname

theorem Progress.isName_of_eof {p : Progress} {t : Located Token} {e : Located ParseError}
    (h : p.step t = .error e) (ht : t.val = .eof) : e.val.isName = false := by
  rw [Bool.eq_false_iff]
  intro hname
  obtain ⟨x, hx⟩ := exists_id_of_isName h hname
  rw [ht] at hx
  cases hx

/-! ## Reading from a supply -/

/-- The same account of another supply. -/
def Account.map {σ τ : Type} (f : σ → τ) (a : Account σ) : Account τ := ⟨a.result, a.log, f a.rest⟩

namespace Supply

variable {σ : Type}

/-- The supply hands out `ts` from `k` on, and `eof` is the last of them. -/
inductive Yields (u : Supply σ) : σ → List (Located Token) → Prop
  | last {k : σ} : (u.next k).1.val = .eof → Yields u k [(u.next k).1]
  | more {k : σ} {ts : List (Located Token)} : (u.next k).1.val ≠ .eof →
      Yields u (u.next k).2 ts → Yields u k ((u.next k).1 :: ts)

/-- The same supply, with an account of the tokens it has handed out, newest first. -/
def observed (u : Supply σ) : Supply (σ × List (Located Token)) where
  next k := ((u.next k.1).1, (u.next k.1).2, (u.next k.1).1 :: k.2)
  size k := u.size k.1
  size_lt k := u.size_lt k.1

theorem Yields.observed {u : Supply σ} {k : σ} {ts : List (Located Token)} (h : u.Yields k ts)
    (seen : List (Located Token)) : u.observed.Yields (k, seen) ts := by
  induction h generalizing seen with
  | @last k he => exact .last (u := u.observed) (k := (k, seen)) he
  | @more k ts hne _ ih => exact .more (u := u.observed) (k := (k, seen)) hne (ih _)

/-! One token of a reading, by what becomes of it. -/

section

variable {u : Supply σ} {p : Progress} {k : σ} (w : Watch) (log : List Event)

theorem skim_newline (h : (u.next k).1.val = .newline) :
    u.skim w log k = u.skim w (w.note log (.pulled (u.next k).1)) (u.next k).2 := by
  rw [skim]
  simp only [if_pos h]

theorem skim_other (h : (u.next k).1.val ≠ .newline) :
    u.skim w log k = (w.note log (.pulled (u.next k).1), (u.next k).2) := by
  rw [skim]
  simp only [if_neg h]

theorem read_newline (h : (u.next k).1.val = .newline) :
    u.read w log p k = u.read w (w.note log (.pulled (u.next k).1)) p (u.next k).2 := by
  rw [read]
  simp only [if_pos h]

theorem read_ok {next : Progress} (h : (u.next k).1.val ≠ .newline)
    (hstep : p.step (u.next k).1 = .ok next) (heof : (u.next k).1.val ≠ .eof) :
    u.read w log p k = u.read w (w.noteToken log p (u.next k).1) next (u.next k).2 := by
  rw [read]
  simp only [if_neg h, hstep, if_neg heof]

theorem read_eof {next : Progress} (hstep : p.step (u.next k).1 = .ok next)
    (heof : (u.next k).1.val = .eof) :
    u.read w log p k =
      ⟨.ok next.program, w.noteToken log p (u.next k).1, (u.next k).2⟩ := by
  have h : (u.next k).1.val ≠ .newline := by simp [heof]
  rw [read]
  simp only [if_neg h, hstep, if_pos heof]

theorem read_error {e : Located ParseError} (h : (u.next k).1.val ≠ .newline)
    (hstep : p.step (u.next k).1 = .error e) (hname : e.val.isName = false) :
    u.read w log p k = ⟨.error e, w.noteToken log p (u.next k).1, (u.next k).2⟩ := by
  rw [read]
  simp only [if_neg h, hstep, hname]
  rfl

theorem read_name_error {e : Located ParseError} (h : (u.next k).1.val ≠ .newline)
    (hstep : p.step (u.next k).1 = .error e) (hname : e.val.isName = true) :
    u.read w log p k = ⟨.error e,
      (u.skim w (w.noteToken log p (u.next k).1) (u.next k).2).1,
      (u.skim w (w.noteToken log p (u.next k).1) (u.next k).2).2⟩ := by
  rw [read]
  simp only [if_neg h, hstep, hname]
  rfl

end

/-- Induction along a look ahead. -/
theorem Yields.skimming {u : Supply σ} {motive : ∀ k ts, u.Yields k ts → Prop}
    (newline : ∀ k ts (hne : (u.next k).1.val ≠ .eof) (h : u.Yields (u.next k).2 ts),
      (u.next k).1.val = .newline → motive _ ts h → motive k _ (.more hne h))
    (other : ∀ k ts (h : u.Yields k ((u.next k).1 :: ts)), (u.next k).1.val ≠ .newline →
      motive k _ h)
    {k : σ} {ts : List (Located Token)} (h : u.Yields k ts) : motive k ts h := by
  induction h with
  | last he => exact other _ [] (.last he) (by simp [he])
  | @more k ts hne hrest ih =>
    by_cases hn : (u.next k).1.val = .newline
    · exact newline k ts hne hrest hn ih
    · exact other k ts (.more hne hrest) hn

/-- Induction along a reading, by what becomes of the next token. At `eof` a reading ends
well or with a fault that is not about a name. -/
theorem Yields.reading {u : Supply σ} {motive : ∀ k ts, u.Yields k ts → Progress → Prop}
    (newline : ∀ k ts (hne : (u.next k).1.val ≠ .eof) (h : u.Yields (u.next k).2 ts) p,
      (u.next k).1.val = .newline → motive _ ts h p → motive k _ (.more hne h) p)
    (ok : ∀ k ts (hne : (u.next k).1.val ≠ .eof) (h : u.Yields (u.next k).2 ts) p next,
      (u.next k).1.val ≠ .newline → p.step (u.next k).1 = .ok next → motive _ ts h next →
      motive k _ (.more hne h) p)
    (eof : ∀ k (he : (u.next k).1.val = .eof) p next, p.step (u.next k).1 = .ok next →
      motive k _ (.last he) p)
    (name : ∀ k ts (hne : (u.next k).1.val ≠ .eof) (h : u.Yields (u.next k).2 ts) p e,
      (u.next k).1.val ≠ .newline → p.step (u.next k).1 = .error e → e.val.isName = true →
      motive k _ (.more hne h) p)
    (fault : ∀ k ts (h : u.Yields k ((u.next k).1 :: ts)) p e, (u.next k).1.val ≠ .newline →
      p.step (u.next k).1 = .error e → e.val.isName = false → motive k _ h p)
    {k : σ} {ts : List (Located Token)} (h : u.Yields k ts) (p : Progress) : motive k ts h p := by
  induction h generalizing p with
  | @last k he =>
    cases hs : p.step (u.next k).1 with
    | ok next => exact eof k he p next hs
    | error e => exact fault k [] (.last he) p e (by simp [he]) hs (Progress.isName_of_eof hs he)
  | @more k ts hne hrest ih =>
    by_cases hn : (u.next k).1.val = .newline
    · exact newline k ts hne hrest p hn (ih p)
    · cases hs : p.step (u.next k).1 with
      | ok next => exact ok k ts hne hrest p next hn hs (ih next)
      | error e =>
        cases hname : e.val.isName with
        | true => exact name k ts hne hrest p e hn hs hname
        | false => exact fault k ts (.more hne hrest) p e hn hs hname

/-- A reading on demand ends as the reading of a list. -/
theorem read_result {u : Supply σ} {k : σ} {ts : List (Located Token)} (h : u.Yields k ts)
    (w : Watch) (log : List Event) (p : Progress) :
    (u.read w log p k).result = (p.feedAll ts).map Progress.program := by
  induction h, p using Yields.reading generalizing log with
  | newline k ts _ _ p hn ih =>
    rw [read_newline w log hn, Progress.feedAll, Progress.feed, if_pos hn]
    exact ih _
  | ok k ts hne _ p next hn hs ih =>
    rw [read_ok w log hn hs hne, Progress.feedAll, p.feed_of_ne_newline hn, hs]
    exact ih _
  | eof k he p next hs =>
    rw [read_eof w log hs he, Progress.feedAll, p.feed_of_ne_newline (by simp [he]), hs]
    rfl
  | name k ts _ _ p e hn hs hname =>
    rw [read_name_error w log hn hs hname, Progress.feedAll, p.feed_of_ne_newline hn, hs]
    rfl
  | fault k ts _ p e hn hs hname =>
    rw [read_error w log hn hs hname, Progress.feedAll, p.feed_of_ne_newline hn, hs]
    rfl

theorem observed_skim {u : Supply σ} {k : σ × List (Located Token)} {ts : List (Located Token)}
    (h : u.observed.Yields k ts) (w : Watch) (log : List Event) :
    (u.observed.skim w log k).2.2 = (Event.lookahead ts).reverse ++ k.2 := by
  induction h using Yields.skimming generalizing log with
  | newline k ts _ _ hn ih =>
    rw [skim_newline w log hn, Event.lookahead, if_pos hn, ih, List.reverse_cons,
      List.append_assoc]
    rfl
  | other k ts _ hn =>
    rw [skim_other w log hn, Event.lookahead, if_neg hn]
    rfl

theorem skim_observed {u : Supply σ} {k : σ × List (Located Token)} {ts : List (Located Token)}
    (h : u.observed.Yields k ts) (w : Watch) (log : List Event) :
    ((u.observed.skim w log k).1, (u.observed.skim w log k).2.1) = u.skim w log k.1 := by
  induction h using Yields.skimming generalizing log with
  | newline k ts _ _ hn ih =>
    rw [skim_newline w log hn, skim_newline w log (k := k.1) hn]
    exact ih _
  | other k ts _ hn =>
    rw [skim_other w log hn, skim_other w log (k := k.1) hn]
    rfl

/-- An observer changes nothing. -/
theorem read_observed {u : Supply σ} {k : σ × List (Located Token)} {ts : List (Located Token)}
    (h : u.observed.Yields k ts) (w : Watch) (log : List Event) (p : Progress) :
    (u.observed.read w log p k).map Prod.fst = u.read w log p k.1 := by
  induction h, p using Yields.reading generalizing log with
  | newline k ts _ _ p hn ih =>
    rw [read_newline w log hn, read_newline w log (k := k.1) hn]
    exact ih _
  | ok k ts hne _ p next hn hs ih =>
    rw [read_ok w log hn hs hne, read_ok w log (k := k.1) hn hs hne]
    exact ih _
  | eof k he p next hs =>
    rw [read_eof w log hs he, read_eof w log (k := k.1) hs he]
    rfl
  | name k ts _ hrest p e hn hs hname =>
    rw [read_name_error w log hn hs hname, read_name_error w log (k := k.1) hn hs hname]
    have hskim := skim_observed hrest w (w.noteToken log p (u.observed.next k).1)
    exact congrArg (fun r => Account.mk (.error e) r.1 r.2) hskim
  | fault k ts _ p e hn hs hname =>
    rw [read_error w log hn hs hname, read_error w log (k := k.1) hn hs hname]
    rfl

/-- The observer sees what is taken. -/
theorem observed_read {u : Supply σ} {k : σ × List (Located Token)} {ts : List (Located Token)}
    (h : u.observed.Yields k ts) (w : Watch) (log : List Event) (p : Progress) :
    (u.observed.read w log p k).rest.2 = (p.taken ts).reverse ++ k.2 := by
  induction h, p using Yields.reading generalizing log with
  | newline k ts _ _ p hn ih =>
    rw [read_newline w log hn, Progress.taken, if_pos hn, ih, List.reverse_cons,
      List.append_assoc]
    rfl
  | ok k ts hne _ p next hn hs ih =>
    rw [read_ok w log hn hs hne, Progress.taken_ok hn hs, ih, List.reverse_cons,
      List.append_assoc]
    rfl
  | eof k he p next hs =>
    rw [read_eof w log hs he, Progress.taken_ok (by simp [he]) hs]
    rfl
  | name k ts _ hrest p e hn hs hname =>
    rw [read_name_error w log hn hs hname, Progress.taken_error hn hs, if_pos hname,
      List.reverse_cons, List.append_assoc]
    exact observed_skim hrest w _
  | fault k ts _ p e hn hs hname =>
    rw [read_error w log hn hs hname, Progress.taken_error hn hs, hname]
    rfl

end Supply

theorem Cursor.yields (k : Cursor) : Cursor.supply.Yields k (k.tokensFrom []) := by
  rw [tokensFrom_nil]
  split
  · rename_i he
    exact .last he
  · rename_i hne
    have hlt := next_rest_length_lt k hne
    exact .more hne k.next.2.yields
termination_by k.rest.length

/-! ## The tokens of a source -/

/-- A text has at most one token for each character, and `eof`. -/
theorem Cursor.length_tokensFrom_le (k : Cursor) :
    (k.tokensFrom []).length ≤ k.rest.length + 1 := by
  rw [tokensFrom_nil]
  split
  · simp
  · rename_i hne
    have hlt := next_rest_length_lt k hne
    have hle := k.next.2.length_tokensFrom_le
    rw [List.length_cons]
    omega
termination_by k.rest.length

mutual

/-- Every statement has a token of its own. -/
theorem Statement.length_preorder_le (s : Statement) : s.preorder.length ≤ s.tokens.length := by
  cases s with
  | ifThen c body =>
    have hbody := Statement.length_preorderAll_le body
    simp only [Statement.preorder, Statement.tokens, Condition.guard, braced, List.length_cons,
      List.length_append]
    omega
  | ifElse c body otherwise =>
    have hbody := Statement.length_preorderAll_le body
    have hother := Statement.length_preorderAll_le otherwise
    simp only [Statement.preorder, Statement.tokens, Condition.guard, braced, List.length_cons,
      List.length_append]
    omega
  | whileDo c body =>
    have hbody := Statement.length_preorderAll_le body
    simp only [Statement.preorder, Statement.tokens, Condition.guard, braced, List.length_cons,
      List.length_append]
    omega
  | dotimes b body =>
    have hbody := Statement.length_preorderAll_le body
    simp only [Statement.preorder, Statement.tokens, braced, List.length_cons,
      List.length_append]
    omega
  | declare x value =>
    cases value <;> simp [Statement.preorder, Statement.tokens]
  | assign x e => simp [Statement.preorder, Statement.tokens]
  | print first more => simp [Statement.preorder, Statement.tokens]
  | read x => simp [Statement.preorder, Statement.tokens]

theorem Statement.length_preorderAll_le (ss : List Statement) :
    (Statement.preorderAll ss).length ≤ (Statement.tokensAll ss).length := by
  cases ss with
  | nil => exact Nat.le_refl 0
  | cons s rest =>
    have hs := s.length_preorder_le
    have hrest := Statement.length_preorderAll_le rest
    simp only [Statement.preorderAll, Statement.tokensAll, List.length_append]
    omega

end

theorem Statement.tokens_ne_nil (s : Statement) : s.tokens ≠ [] := by
  cases s with
  | declare x value => cases value <;> simp [Statement.tokens]
  | _ => simp [Statement.tokens, Condition.guard]

namespace Source

/-- A reading of the source with an observer where its tokens come from. -/
def observed (s : Source) (w : Watch) : Account (Cursor × List (Located Token)) :=
  Cursor.supply.observed.read w [] .start (s.cursor, [])

/-- The tokens that a reading of the source takes, in the order in which it does. -/
def taken (s : Source) (w : Watch) : List (Located Token) := (s.observed w).rest.2.reverse

theorem taken_eq (s : Source) (w : Watch) : s.taken w = Progress.start.taken s.tokens := by
  have h := Supply.observed_read (s.cursor.yields.observed []) w [] .start
  rw [taken, observed, h]
  simp [tokens]

theorem account_result (s : Source) (w : Watch) : (s.account w).result = s.parse :=
  Supply.read_result s.cursor.yields w [] .start

theorem map_observed (s : Source) (w : Watch) : (s.observed w).map Prod.fst = s.account w :=
  Supply.read_observed (s.cursor.yields.observed []) w [] .start

/-- There are fewer statements than tokens. -/
theorem length_preorderAll_lt {s : Source} {p : Program} (h : s.parse = .ok p) :
    (Statement.preorderAll p.statements).length < s.tokens.length := by
  obtain ⟨ts, e, hs, -, -, hw⟩ := s.words_eq
  have hle := Statement.length_preorderAll_le p.statements
  have hwords := congrArg List.length (parse_spelled h).1
  have hfilter := List.length_filter_le (fun t : Located Token => decide (t.val ≠ .newline)) ts
  rw [List.length_map, List.length_map, hw, wordsOf_eq_map, List.length_map] at hwords
  rw [hs, List.length_append, List.length_singleton]
  omega

/-- `eof` is never taken but last. -/
theorem ne_eof_of_mem_dropLast_taken (s : Source) (w : Watch) :
    ∀ t ∈ (s.taken w).dropLast, t.val ≠ .eof := by
  obtain ⟨ts, e, hs, -, hts⟩ := s.tokens_eq_append
  obtain ⟨rest, hrest⟩ := Progress.start.taken_prefix s.tokens
  rw [← s.taken_eq w, hs] at hrest
  intro t ht
  refine (hts t ?_).1
  rcases List.eq_nil_or_concat rest with rfl | ⟨more, last, hmore⟩
  · rw [List.append_nil] at hrest
    rwa [hrest, List.dropLast_concat] at ht
  · rw [hmore, List.concat_eq_append, ← List.append_assoc] at hrest
    rw [← List.append_inj_left' hrest rfl]
    exact List.mem_append_left _ (List.dropLast_subset _ ht)

/-- The end of the text is behind every other token. -/
theorem exists_behind {s : Source} {before after : List (Located Token)} {t : Located Token}
    (h : s.tokens = before ++ t :: after) (ht : t.val ≠ .eof) :
    ∃ u ∈ after, u.val ≠ .newline := by
  obtain ⟨ts, e, hs, he, -⟩ := s.tokens_eq_append
  have hlast : (before ++ t :: after).getLast? = some e := by
    rw [← h, hs, List.getLast?_concat]
  rw [List.getLast?_append_of_ne_nil _ (by simp), List.getLast?_cons] at hlast
  cases hafter : after.getLast? with
  | none =>
    rw [hafter] at hlast
    cases hlast
    exact absurd he ht
  | some u =>
    rw [hafter] at hlast
    obtain rfl : u = e := Option.some.inj hlast
    exact ⟨u, List.mem_of_getLast? hafter, by simp [he]⟩

end Source

/-- The tokens end where a reader stops that finds the fault `e`: at the token it is
about or, if that is a name, at the next one that is no newline. -/
def EndsAtFault (ts : List (Located Token)) (e : Located ParseError) : Prop :=
  ∃ before t more q, ts = before ++ t :: more ∧ t.val ≠ .newline ∧ t.span = e.span ∧
    Progress.start.feedAll before = .ok q ∧ q.step t = .error e ∧
    if e.val.isName then
      (∃ x, t.val = .id x) ∧ ∃ newlines u, more = newlines ++ [u] ∧
        (∀ n ∈ newlines, n.val = .newline) ∧ u.val ≠ .newline
    else more = []

theorem Source.taken_of_ok {s : Source} {p : Program} (w : Watch) (h : s.parse = .ok p) :
    s.taken w = s.tokens := by
  rw [Source.parse, BareBones.parse] at h
  cases hf : Progress.start.feedAll s.tokens with
  | error e =>
    rw [hf] at h
    cases h
  | ok q =>
    have htaken := Progress.taken_append hf []
    rwa [List.append_nil, Progress.taken, List.append_nil, ← s.taken_eq w] at htaken

theorem Source.taken_endsAtFault {s : Source} {e : Located ParseError} (w : Watch)
    (h : s.parse = .error e) : EndsAtFault (s.taken w) e := by
  have herror : Progress.start.feedAll s.tokens = .error e := by
    rw [Source.parse, BareBones.parse] at h
    cases hf : Progress.start.feedAll s.tokens with
    | ok p => rw [hf] at h; cases h
    | error e' => rw [hf] at h; cases h; rfl
  obtain ⟨before, t, after, q, hsplit, ht, hq, hstep, htaken⟩ := Progress.taken_of_error herror
  rw [s.taken_eq, htaken]
  refine ⟨before, t, _, q, rfl, ht, (q.step_faultAt t e hstep).symm, hq, hstep, ?_⟩
  split
  · rename_i hname
    obtain ⟨x, hx⟩ := Progress.exists_id_of_isName hstep hname
    have hbehind := Source.exists_behind hsplit (by simp [hx])
    exact ⟨⟨x, hx⟩, Event.lookahead_eq hbehind⟩
  · rfl

/-- A source is read to its end or to its first fault, whatever is watched. The tokens
that are taken on the way are its tokens from the first one on, each of them once:
all of them, with `eof` as the last, if the source is accepted, and else those up to the
fault. There are at most as many as there are characters, and `eof`. In an accepted source
they are, newlines and `eof` apart, those of one statement after the other, and no statement,
nested or not, is without one of its own. -/
theorem Source.taken_exact (s : Source) (w : Watch) :
    (s.account w).result = s.parse ∧ (s.observed w).map Prod.fst = s.account w ∧
    s.taken w <+: s.tokens ∧ (∀ t ∈ (s.taken w).dropLast, t.val ≠ .eof) ∧
    (s.taken w).length ≤ s.text.toList.length + 1 ∧
    (∀ p, s.parse = .ok p → s.taken w = s.tokens ∧
      (∃ e, (s.taken w).getLast? = some e ∧ e.val = .eof) ∧
      s.words.map Token.reading = (Statement.tokensAll p.statements).map Token.reading ∧
      (∀ st ∈ Statement.preorderAll p.statements, st.tokens ≠ []) ∧
      (Statement.preorderAll p.statements).length < (s.taken w).length) ∧
    ∀ e, s.parse = .error e → EndsAtFault (s.taken w) e := by
  have hprefix : s.taken w <+: s.tokens := by
    rw [s.taken_eq]
    exact Progress.start.taken_prefix s.tokens
  refine ⟨s.account_result w, s.map_observed w, hprefix, s.ne_eof_of_mem_dropLast_taken w,
    hprefix.length_le.trans s.cursor.length_tokensFrom_le, ?_, fun e h => s.taken_endsAtFault w h⟩
  intro p h
  obtain ⟨ts, e, hs, he, -⟩ := s.tokens_eq_append
  rw [s.taken_of_ok w h]
  exact ⟨rfl, ⟨e, by rw [hs, List.getLast?_concat], he⟩, (parse_spelled h).1.symm,
    fun st _ => st.tokens_ne_nil, length_preorderAll_lt h⟩

end BareBones
