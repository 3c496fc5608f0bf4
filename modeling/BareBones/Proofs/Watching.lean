import BareBones.Compile
import BareBones.Proofs.Demand

/-!
Watching changes nothing. Whatever is watched, a source is compiled to the same text or
refused with the same report, and what is written down are those of its events that show
(`Supply.read_log`). So the records of tokens and of productions are the two parts of
what is written down when both are watched, and the records of tokens are about exactly
the tokens that were taken.
-/

namespace BareBones

/-! ## What is written down -/

namespace Watch

/-- What is noted first comes first. -/
theorem append_note (w : Watch) (log es : List Event) (e : Event) :
    (es.filter w.shows).reverse ++ w.note log e =
      ((e :: es).filter w.shows).reverse ++ log := by
  rw [note]
  cases h : w.shows e <;> simp [h]

theorem foldl_note (w : Watch) (log es : List Event) :
    es.foldl w.note log = (es.filter w.shows).reverse ++ log := by
  induction es generalizing log with
  | nil => rfl
  | cons e es ih =>
    rw [List.foldl_cons, ih, append_note]

end Watch

namespace Event

/-- What happens at one token. -/
def atToken (p : Progress) (t : Located Token) : List Event :=
  pulled t :: (p.enters t.val).map (entered · t.span)

/-- What has been seen before stays where it is. -/
theorem record_eq (seen : List Event) (p : Progress) (ts : List (Located Token)) :
    record seen p ts = seen.reverse ++ record [] p ts := by
  induction ts generalizing seen p with
  | nil => simp [record]
  | cons t ts ih =>
    rw [record, record]
    split
    · rw [ih (pulled t :: seen), ih [pulled t]]
      simp
    · dsimp only
      split
      · rw [ih, ih (_ ++ [pulled t])]
        simp
      · simp

variable {p : Progress} {t : Located Token}

theorem record_newline (h : t.val = .newline) (ts : List (Located Token)) :
    record [] p (t :: ts) = pulled t :: record [] p ts := by
  rw [record, if_pos h, record_eq]
  rfl

theorem record_ok {next : Progress} (h : t.val ≠ .newline) (hs : p.step t = .ok next)
    (ts : List (Located Token)) :
    record [] p (t :: ts) = atToken p t ++ record [] next ts := by
  rw [record, if_neg h]
  simp only [hs]
  rw [record_eq]
  simp [atToken]

theorem record_error {e : Located ParseError} (h : t.val ≠ .newline) (hs : p.step t = .error e)
    (ts : List (Located Token)) :
    record [] p (t :: ts) =
      atToken p t ++ if e.val.isName then (lookahead ts).map pulled else [] := by
  rw [record, if_neg h]
  simp only [hs]
  simp [atToken]

end Event

theorem Watch.noteToken_eq (w : Watch) (log : List Event) (p : Progress) (t : Located Token) :
    w.noteToken log p t = ((Event.atToken p t).filter w.shows).reverse ++ log :=
  w.foldl_note log (Event.atToken p t)

namespace Supply

variable {σ : Type} {u : Supply σ}

theorem skim_log {k : σ} {ts : List (Located Token)} (h : u.Yields k ts) (w : Watch)
    (log : List Event) :
    (u.skim w log k).1 =
      (((Event.lookahead ts).map Event.pulled).filter w.shows).reverse ++ log := by
  induction h using Yields.skimming generalizing log with
  | newline k ts _ _ hn ih =>
    rw [skim_newline w log hn, Event.lookahead, if_pos hn, ih, w.append_note]
    rfl
  | other k ts _ hn =>
    rw [skim_other w log hn, Event.lookahead, if_neg hn]
    exact w.append_note log [] _

/-- The events that show are written down in their order. -/
theorem read_log {k : σ} {ts : List (Located Token)} (h : u.Yields k ts) (w : Watch)
    (log : List Event) (p : Progress) :
    (u.read w log p k).log = ((Event.record [] p ts).filter w.shows).reverse ++ log := by
  induction h, p using Yields.reading generalizing log with
  | newline k ts _ _ p hn ih =>
    rw [read_newline w log hn, Event.record_newline hn, ih, w.append_note]
  | ok k ts hne _ p next hn hs ih =>
    rw [read_ok w log hn hs hne, Event.record_ok hn hs, ih, w.noteToken_eq, List.filter_append,
      List.reverse_append, List.append_assoc]
  | eof k he p next hs =>
    rw [read_eof w log hs he, Event.record_ok (by simp [he]) hs, w.noteToken_eq, Event.record]
    simp
  | name k ts _ hrest p e hn hs hname =>
    rw [read_name_error w log hn hs hname, Event.record_error hn hs, if_pos hname,
      List.filter_append, List.reverse_append, List.append_assoc, ← w.noteToken_eq]
    exact skim_log hrest w _
  | fault k ts _ p e hn hs hname =>
    rw [read_error w log hn hs hname, Event.record_error hn hs, hname, w.noteToken_eq]
    simp

end Supply

/-- The tokens among the events are those that are taken. -/
theorem Event.filter_isPulled_record (p : Progress) (ts : List (Located Token)) :
    (record [] p ts).filter isPulled = (p.taken ts).map pulled := by
  have hat (q : Progress) (t : Located Token) : (atToken q t).filter isPulled = [pulled t] := by
    rw [atToken, List.filter_cons_of_pos rfl, List.filter_eq_nil_iff.mpr]
    simp [isPulled]
  have hall (us : List (Located Token)) : (us.map pulled).filter isPulled = us.map pulled := by
    simp [List.filter_map, Function.comp_def, isPulled]
  induction ts generalizing p with
  | nil => rfl
  | cons t ts ih =>
    by_cases hn : t.val = .newline
    · rw [record_newline hn, Progress.taken, if_pos hn, List.filter_cons_of_pos rfl, ih]
      rfl
    · cases hs : p.step t with
      | ok next =>
        rw [record_ok hn hs, Progress.taken_ok hn hs, List.filter_append, hat, ih]
        rfl
      | error e =>
        rw [record_error hn hs, Progress.taken_error hn hs, List.filter_append, hat]
        split
        · rw [hall]
          rfl
        · rfl

/-! ## Records -/

/-- Whether a record is about a token. -/
def Event.recordsToken (record : String) : Bool := "[lex]".toList.isPrefixOf record.toList

/-- Whether a record is about a production. -/
def Event.recordsProduction (record : String) : Bool := "[parse]".toList.isPrefixOf record.toList

namespace Event

theorem recordsToken_render (s : Source) (e : Event) : recordsToken (e.render s) = e.isPulled := by
  cases e <;> simp [recordsToken, render, isPulled, List.isPrefixOf]

theorem recordsProduction_render (s : Source) (e : Event) :
    recordsProduction (e.render s) = !e.isPulled := by
  cases e <;> simp [recordsProduction, render, isPulled, List.isPrefixOf]

end Event

namespace Source

theorem account_log (s : Source) (w : Watch) :
    (s.account w).log.reverse = s.events.filter w.shows := by
  have h := Supply.read_log s.cursor.yields w [] .start
  rw [account, h, List.append_nil, List.reverse_reverse]
  rfl

theorem translate_fst (s : Source) (f : C.Format) (w : Watch) :
    (s.translate f w).1 = s.compile f := by
  simp only [translate, s.account_result w]
  rfl

/-- What is written down are the events that show, in their order. -/
theorem translate_snd (s : Source) (f : C.Format) (w : Watch) :
    (s.translate f w).2 = (s.events.filter w.shows).map (Event.render s) := by
  rw [← s.account_log w]
  rfl

theorem events_filter_isPulled (s : Source) (w : Watch) :
    s.events.filter Event.isPulled = (s.taken w).map Event.pulled := by
  rw [s.taken_eq w]
  exact Event.filter_isPulled_record .start s.tokens

/-- Watching both kinds of event writes down everything. -/
theorem translate_both (s : Source) (f : C.Format) :
    (s.translate f ⟨true, true⟩).2 = s.events.map (Event.render s) := by
  have hall : s.events.filter (Watch.shows ⟨true, true⟩) = s.events :=
    List.filter_eq_self.mpr fun e _ => by simp [Watch.shows]
  rw [s.translate_snd, hall]

/-- The records of a kind that a watch shows are those of the kind among all records. -/
theorem translate_filter (s : Source) (f : C.Format) {w : Watch} {kind : String → Bool}
    (h : ∀ e : Event, kind (e.render s) = w.shows e) :
    (s.translate f w).2 = (s.translate f ⟨true, true⟩).2.filter kind := by
  rw [s.translate_snd, s.translate_both, List.filter_map]
  exact congrArg _ (List.filter_congr fun e _ => (h e).symm)

/-- Nothing depends on being watched. The outcome is the same whatever is watched. With
both kinds of event watched, each record is about a token or about a production and not
about both; with one kind watched, its records are written down as they would be among all,
and with none, nothing is. The records of tokens name the tokens that are taken, in the
order in which they are, and say where they stand. -/
theorem translate_watched (s : Source) (f : C.Format) :
    (∀ w, (s.translate f w).1 = s.compile f ∧ String.join (s.translate f w).2 = s.trace w) ∧
    (∀ r ∈ (s.translate f ⟨true, true⟩).2,
      Event.recordsProduction r = !Event.recordsToken r) ∧
    (s.translate f ⟨true, false⟩).2 =
      (s.translate f ⟨true, true⟩).2.filter Event.recordsToken ∧
    (s.translate f ⟨false, true⟩).2 =
      (s.translate f ⟨true, true⟩).2.filter Event.recordsProduction ∧
    (s.translate f ⟨false, false⟩).2 = [] ∧
    ∀ w, (s.translate f ⟨true, true⟩).2.filter Event.recordsToken =
      (s.taken w).map fun t => "[lex] " ++ t.val.describe ++ " at " ++ s.cite t.span ++ "\n" := by
  have htokens : (s.translate f ⟨true, false⟩).2 =
      (s.translate f ⟨true, true⟩).2.filter Event.recordsToken :=
    s.translate_filter f fun e => by
      rw [Event.recordsToken_render]
      cases e <;> rfl
  refine ⟨fun w => ⟨s.translate_fst f w, ?_⟩, ?_, htokens, ?_, ?_, ?_⟩
  · rw [s.translate_snd]
    rfl
  · rw [s.translate_both]
    intro r hr
    obtain ⟨e, -, rfl⟩ := List.mem_map.mp hr
    rw [Event.recordsProduction_render, Event.recordsToken_render]
  · refine s.translate_filter f fun e => ?_
    rw [Event.recordsProduction_render]
    cases e <;> rfl
  · rw [s.translate_snd, List.filter_eq_nil_iff.mpr fun e _ => by simp [Watch.shows]]
    rfl
  · intro w
    have hshows : Watch.shows ⟨true, false⟩ = Event.isPulled := by
      funext e
      cases e <;> rfl
    rw [← htokens, s.translate_snd, hshows, s.events_filter_isPulled w, List.map_map]
    rfl

end Source

end BareBones
