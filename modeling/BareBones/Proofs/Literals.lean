import Mathlib.Data.List.Forall2
import BareBones.Proofs.FirstFault
import BareBones.Proofs.NameFaults

/-!
Numbers in a program. Digits of any length are read as the integer that they denote or
refused because it is too large (`readInt32_digits`, `readLiteral_digits`), wherever the
grammar admits a number (`Progress.exists_number_of_admits`, `Source.literal_at`). The
reader makes no other use of the digits, so leading zeros change nothing in the C text
(`Source.compile_of_repadded`).
-/

namespace BareBones

open Grammar

/-! ## Digits -/

/-- A word of digits, and at least one. -/
def IsNumeral (d : String) : Prop := d.toList ≠ [] ∧ ∀ c ∈ d.toList, c.isDigit = true

/-- What can be wrong with the digits of an integer. -/
inductive IntFault where
  | empty
  | invalidDigit
  | posOverflow
  | negOverflow
deriving DecidableEq

/-- Reads digits one by one behind those that make up `value`, and stops where `bound` is
exceeded. -/
def readDigits (bound : Nat) (overflow : IntFault) (value : Nat) : List Char → Except IntFault Nat
  | [] => .ok value
  | c :: cs =>
    if c.isDigit = false then .error .invalidDigit
    else if bound < 10 * value + (c.toNat - '0'.toNat) then .error overflow
    else readDigits bound overflow (10 * value + (c.toNat - '0'.toNat)) cs

/-- The standard reading of a decimal integer of 32 bits, which may begin with a sign. -/
def readInt32 : List Char → Except IntFault Int
  | [] => .error .empty
  | ['+'] | ['-'] => .error .invalidDigit
  | '+' :: cs => (readDigits 2147483647 .posOverflow 0 cs).map fun n => (n : Int)
  | '-' :: cs => (readDigits 2147483648 .negOverflow 0 cs).map fun n => -(n : Int)
  | cs => (readDigits 2147483647 .posOverflow 0 cs).map fun n => (n : Int)

/-- Further digits do not make a number smaller. -/
theorem le_ofDigitChars (value : Nat) (cs : List Char) : value ≤ Nat.ofDigitChars 10 cs value := by
  induction cs generalizing value with
  | nil => exact Nat.le_refl value
  | cons c cs ih =>
    rw [Nat.ofDigitChars_cons]
    have hrest := ih (10 * value + (c.toNat - '0'.toNat))
    omega

/-- Digits are read as the number that they denote, however many they are. -/
theorem readDigits_eq {bound : Nat} {overflow : IntFault} {value : Nat} (hvalue : value ≤ bound)
    {cs : List Char} (h : ∀ c ∈ cs, c.isDigit = true) :
    readDigits bound overflow value cs =
      if Nat.ofDigitChars 10 cs value ≤ bound then .ok (Nat.ofDigitChars 10 cs value)
      else .error overflow := by
  induction cs generalizing value with
  | nil => exact (if_pos hvalue).symm
  | cons c cs ih =>
    obtain ⟨hc, hcs⟩ := List.forall_mem_cons.mp h
    rw [readDigits, if_neg (by simp [hc]), Nat.ofDigitChars_cons]
    split
    · rename_i hover
      have hmore := le_ofDigitChars (10 * value + (c.toNat - '0'.toNat)) cs
      rw [if_neg (by omega)]
    · rename_i hfits
      exact ih (by omega) hcs

/-- Without a sign there is nothing wrong with digits but that they are too many. -/
theorem readInt32_digits {d : String} (h : IsNumeral d) :
    readInt32 d.toList =
      if decimalValue d ≤ 2147483647 then .ok (decimalValue d : Int) else .error .posOverflow := by
  obtain ⟨c, cs, hd⟩ := List.exists_cons_of_ne_nil h.1
  have hdigits := h.2
  have hunsigned : readInt32 (c :: cs) =
      (readDigits 2147483647 .posOverflow 0 (c :: cs)).map fun n => (n : Int) := by
    have hc : c.isDigit = true := hdigits c (by simp [hd])
    have hplus : c ≠ '+' := by rintro rfl; exact absurd hc (by decide)
    have hminus : c ≠ '-' := by rintro rfl; exact absurd hc (by decide)
    rw [readInt32] <;> simp [hplus, hminus]
  rw [hd] at hdigits
  rw [decimalValue, hd, hunsigned, readDigits_eq (Nat.zero_le _) hdigits]
  split <;> rfl

theorem readLiteral_fits {d : String} (h : decimalValue d ≤ 2147483647) (s : Span) :
    ∃ n, readLiteral d s = .ok n ∧ n.value = decimalValue d := by
  obtain ⟨n, hn⟩ := Option.isSome_iff_exists.mp ((Literal.ofDigits?_isSome_iff d).mpr h)
  exact ⟨n, Progress.readLiteral_ok hn, Literal.ofDigits?_eq_some hn⟩

theorem readLiteral_overflows {d : String} (h : 2147483647 < decimalValue d) (s : Span) :
    readLiteral d s = .error ⟨.literalOverflow d, s⟩ := by
  have hnone : Literal.ofDigits? d = none := by
    rw [← Option.not_isSome_iff_eq_none, Literal.ofDigits?_isSome_iff]
    omega
  rw [readLiteral, hnone]

/-- Numbers are read by what they denote. -/
theorem readLiteral_of_value {d d' : String} (h : decimalValue d' = decimalValue d) {s : Span}
    {n : Literal} (hd : readLiteral d s = .ok n) : readLiteral d' s = .ok n := by
  have hn := readLiteral_eq_ok hd
  rw [Literal.ofDigits?_eq] at hn
  exact Progress.readLiteral_ok (by rw [Literal.ofDigits?_eq, ← hn]; simp only [h])

/-! ## Where a number is read -/

namespace Progress

/-- How the reader goes on if it finds a number, where it can do anything with one. -/
def number? (p : Progress) : Option (Literal → Span → Progress) :=
  match p.focus with
  | .factor into groups left =>
    some fun n s => p.await (.chain into groups (.extend left (.number n s)))
  | .condition test groups links .term =>
    some fun n _ => p.await (.condition test groups links (.operand false (.number n)))
  | .condition test groups links .negated =>
    some fun n _ => p.await (.condition test groups links (.operand true (.number n)))
  | .condition test groups links (.right negated x op) =>
    some fun n _ => p.await (.condition test groups links
      (.whole (.compare negated x op (.number n))))
  | .bound => some fun n s => p.await (.boundClose ⟨.number n, s⟩)
  | _ => none

/-- In all these places the digits are judged in the same way. -/
theorem step_number {p : Progress} {next : Literal → Span → Progress} (h : p.number? = some next)
    (d : String) (s : Span) : p.step ⟨.number d, s⟩ = (readLiteral d s).map (next · s) := by
  unfold number? at h
  unfold step
  split at h
  · rename_i into groups left hf
    cases h
    rw [hf]
    cases hd : readLiteral d s <;> simp only [stepFactor, readFactor, hd] <;> rfl
  · rename_i test groups links hf
    cases h
    rw [hf]
    cases hd : readLiteral d s <;> simp only [stepCondition, readOperand, hd] <;> rfl
  · rename_i test groups links hf
    cases h
    rw [hf]
    cases hd : readLiteral d s <;> simp only [stepCondition, readOperand, hd] <;> rfl
  · rename_i test groups links negated x op hf
    cases h
    rw [hf]
    cases hd : readLiteral d s <;> simp only [stepCondition, readOperand, hd] <;> rfl
  · rename_i hf
    cases h
    rw [hf]
    cases hd : readLiteral d s <;> simp only [readBound, hd] <;> rfl
  · cases h

/-- In any other place a number is refused whatever its digits are. -/
theorem step_stray_number {p : Progress} (h : p.number? = none) (d : String) (s : Span) :
    ∃ wanted, p.step ⟨.number d, s⟩ = .error ⟨.unexpected wanted (.number d), s⟩ := by
  unfold number? at h
  unfold step
  cases hf : p.focus with
  | factor into groups left => simp [hf] at h
  | bound => simp [hf] at h
  | condition test groups links focus =>
    cases focus with
    | term => simp [hf] at h
    | negated => simp [hf] at h
    | right negated x op => simp [hf] at h
    | operand negated x => cases groups <;> exact ⟨_, rfl⟩
    | whole c => cases groups <;> exact ⟨_, rfl⟩
    | group negated c => cases groups <;> exact ⟨_, rfl⟩
  | chain into groups value => cases groups <;> exact ⟨_, rfl⟩
  | _ => exact ⟨_, rfl⟩

end Progress

/-! ## Where the grammar admits a number -/

/-- Behind the tokens `w` a program may go on with a number: they begin statements whose
next token is one, and have nothing wrong with their own numbers and names. -/
structure AdmitsNumber (w : List Token) : Prop where
  sentence : ∃ more, Derives .statements (w.map Token.terminal ++ .number :: more)
  fits : LiteralsFit w
  named : WellNamed w

/-- Some token for each terminal. -/
def Terminal.sample : Terminal → Token
  | ident => .id "x"
  | number => .number "0"
  | text => .str ""
  | mark m => .punctuation m
  | operator op => .operator op
  | keyword k => .keyword k
  | eof => .eof
  | foreign => .newline

/-- Tokens at no particular place for each of some terminals. -/
def Terminal.samples (w : List Terminal) : List (Located Token) :=
  w.map fun v => ⟨v.sample, .nowhere⟩

theorem Terminal.map_terminal_samples (w : List Terminal) :
    (samples w).map (·.val.terminal) = w := by
  have hsample : ∀ v : Terminal, v.sample.terminal = v := by
    intro v
    cases v <;> rfl
  rw [samples, List.map_map]
  exact (List.map_congr_left fun v _ => hsample v).trans (List.map_id w)

theorem Terminal.samples_fit (w : List Terminal) : LiteralsFit ((samples w).map (·.val)) := by
  intro d hd
  obtain ⟨t, ht, htd⟩ := List.mem_map.mp hd
  obtain ⟨v, -, rfl⟩ := List.mem_map.mp ht
  cases v <;> cases htd
  decide

namespace Progress

/-- Names that are in order are not refused. -/
theorem feedAll_ne_name_error {before : List (Located Token)}
    (hkind : ∀ t ∈ before, t.val ≠ .eof ∧ t.val ≠ .newline)
    (hnamed : WellNamed (before.map (·.val))) (n : NameError) (s : Span) :
    start.feedAll before ≠ .error ⟨.name n, s⟩ := by
  intro herror
  obtain ⟨first, t, after, q, rfl, hq, ht⟩ := feedAll_eq_error herror
  have hnewline : ∀ u ∈ first, u.val ≠ .newline :=
    fun u hu => (hkind u (List.mem_append_left _ hu)).2
  have hadvances := feedAll_advances
    (fun u hu => (hkind u (List.mem_append_left _ hu)).1) hq
  rw [wordsOf_of_ne_newline hnewline] at hadvances
  have hrun : Naming.run {} (first.map (·.val)) = some q.naming := hadvances.named
  have hmem : t ∈ first ++ t :: after := List.mem_append_right _ List.mem_cons_self
  rw [feed_of_ne_newline q (hkind t hmem).2] at ht
  have hsome := (Naming.run_isSome_iff _).mpr hnamed
  rw [List.map_append, List.map_cons, Naming.run_append, hrun, Option.bind_some, Naming.run,
    naming_step_of_name_error ht] at hsome
  cases hsome

/-- Where the grammar admits a number the reader comes to a state that goes on with it. -/
theorem exists_number_of_admits {before : List (Located Token)}
    (hkind : ∀ t ∈ before, t.val ≠ .eof ∧ t.val ≠ .newline)
    (h : AdmitsNumber (before.map (·.val))) :
    ∃ q next, start.feedAll before = .ok q ∧ q.number? = some next := by
  obtain ⟨more, hd⟩ := h.sentence
  -- the tokens are completed to statements, with the number zero behind them
  have hterminals : (before ++ Terminal.samples (.number :: more)).map (·.val.terminal) =
      (before.map (·.val)).map Token.terminal ++ .number :: more := by
    rw [List.map_append, Terminal.map_terminal_samples, List.map_map]
    rfl
  have hfits : LiteralsFit ((before ++ Terminal.samples (.number :: more)).map (·.val)) := by
    intro d hmem
    rw [List.map_append, List.mem_append] at hmem
    exact hmem.elim (h.fits d) (Terminal.samples_fit _ d)
  have hreads := readable_of_derives hd start trivial _ hterminals hfits
  rw [feedAll_append] at hreads
  cases hbefore : start.feedAll before with
  | error e =>
    rw [hbefore] at hreads
    rcases hreads with ⟨q, hq, -⟩ | ⟨n, s, he, -⟩
    · cases hq
    · cases he
      exact absurd hbefore (feedAll_ne_name_error hkind h.named n s)
  | ok q =>
    cases hnumber : q.number? with
    | some next => exact ⟨q, next, rfl, hnumber⟩
    | none =>
      obtain ⟨wanted, hstep⟩ := step_stray_number hnumber "0" .nowhere
      have hfeed : q.feed ⟨.number "0", .nowhere⟩ = _ :=
        (feed_of_ne_newline q (by simp)).trans hstep
      rw [hbefore, Terminal.samples, List.map_cons] at hreads
      simp only [Except.bind, feedAll, Terminal.sample, hfeed] at hreads
      rcases hreads with ⟨q, hq, -⟩ | ⟨n, s, he, -⟩
      · cases hq
      · cases he

end Progress

/-- The state of the reader in front of a number that the grammar admits. -/
theorem Source.exists_number {s : Source} {before after : List (Located Token)}
    {t : Located Token} (h : s.significant = before ++ t :: after)
    (hadmits : AdmitsNumber (before.map (·.val))) :
    ∃ q next, Progress.start.feedAll before = .ok q ∧ q.number? = some next := by
  refine Progress.exists_number_of_admits (fun u hu => ⟨ne_eof_of_before h u hu, ?_⟩) hadmits
  exact ne_newline_of_mem_significant (h ▸ List.mem_append_left _ hu)

/-- Wherever a number may stand it is read if it is in range; otherwise the source is
refused for its digits. -/
theorem Source.literal_at {s : Source} {before after : List (Located Token)} {t : Located Token}
    {d : String} (h : s.significant = before ++ t :: after) (ht : t.val = .number d)
    (hadmits : AdmitsNumber (before.map (·.val))) :
    ((∃ q, Progress.start.feedAll (before ++ [t]) = .ok q) ↔ decimalValue d ≤ 2147483647) ∧
    (2147483647 < decimalValue d → s.parse = .error ⟨.literalOverflow d, t.span⟩) := by
  obtain ⟨q, next, hq, hnext⟩ := s.exists_number h hadmits
  obtain ⟨_, span⟩ := t
  cases ht
  have hfeed : q.feed ⟨.number d, span⟩ = (readLiteral d span).map (next · span) :=
    (Progress.feed_of_ne_newline q (by simp)).trans (Progress.step_number hnext d span)
  refine ⟨⟨?_, ?_⟩, ?_⟩
  · rintro ⟨r, hr⟩
    refine Classical.byContradiction fun hover => ?_
    rw [Progress.feedAll_append, hq] at hr
    simp only [Except.bind, Progress.feedAll, hfeed,
      readLiteral_overflows (Nat.lt_of_not_le hover)] at hr
    cases hr
  · intro hfits
    obtain ⟨n, hn, -⟩ := readLiteral_fits hfits span
    refine ⟨next n span, ?_⟩
    rw [Progress.feedAll_append, hq]
    simp only [Except.bind, Progress.feedAll, hfeed, hn]
    rfl
  · intro hover
    rw [parse_significant, BareBones.parse, h, Progress.feedAll_append, hq]
    simp only [Except.bind, Progress.feedAll, hfeed, readLiteral_overflows hover]
    rfl

/-- A program admits the numbers that it has. -/
theorem Source.admitsNumber_of_words {s : Source} {p : Program} (h : s.parse = .ok p)
    {w v : List Token} {d : String} (hw : s.words = w ++ .number d :: v) : AdmitsNumber w := by
  obtain ⟨hread, hfits, hnamed⟩ := Source.parse_spelled h
  have hsentence := Statement.tokensAll_derives p.statements
  rw [map_terminal_eq_of_reading hread, hw, List.map_append, List.map_cons] at hsentence
  rw [hw] at hfits hnamed
  exact ⟨⟨_, hsentence⟩, fun d' hd' => hfits d' (List.mem_append_left _ hd'), hnamed.of_append⟩

/-! ## Leading zeros -/

/-- The same token, but for the zeros that a number begins with. -/
def Token.Repadded : Token → Token → Prop
  | number d, u => ∃ d', u = number d' ∧ d'.toList.dropWhile (· = '0') = d.toList.dropWhile (· = '0')
  | t, u => u = t

theorem ofDigitChars_dropWhile (cs : List Char) :
    Nat.ofDigitChars 10 (cs.dropWhile (· = '0')) 0 = Nat.ofDigitChars 10 cs 0 := by
  induction cs with
  | nil => rfl
  | cons c cs ih =>
    by_cases hc : c = '0'
    · rw [List.dropWhile_cons_of_pos (by simpa using hc), ih, hc, Nat.ofDigitChars_cons]
      rfl
    · rw [List.dropWhile_cons_of_neg (by simpa using hc)]

theorem Token.Repadded.reading {t u : Token} (h : t.Repadded u) : u.reading = t.reading := by
  cases t with
  | number d =>
    obtain ⟨d', rfl, hzeros⟩ := h
    rw [Token.reading, Token.reading, decimalValue, ← ofDigitChars_dropWhile, hzeros,
      ofDigitChars_dropWhile, decimalValue]
  | _ =>
    cases h
    rfl

theorem map_reading_of_repadded {w v : List Token} (h : List.Forall₂ Token.Repadded w v) :
    v.map Token.reading = w.map Token.reading := by
  induction h with
  | nil => rfl
  | cons ht _ ih => rw [List.map_cons, ht.reading, ih, List.map_cons]

namespace Progress

theorem step_of_reading {p q : Progress} {t u : Token} (h : u.reading = t.reading) {s : Span}
    (hq : p.step ⟨t, s⟩ = .ok q) : p.step ⟨u, s⟩ = .ok q := by
  cases t with
  | number d =>
    obtain ⟨d', rfl⟩ : ∃ d', u = .number d' := by
      cases u with
      | number d' => exact ⟨d', rfl⟩
      | _ => cases h
    have hvalue : decimalValue d' = decimalValue d := Sum.inr.inj h
    cases hnumber : p.number? with
    | none =>
      obtain ⟨wanted, hstray⟩ := step_stray_number hnumber d s
      rw [hstray] at hq
      cases hq
    | some next =>
      rw [step_number hnumber] at hq ⊢
      cases hd : readLiteral d s with
      | error e =>
        rw [hd] at hq
        cases hq
      | ok n => rwa [readLiteral_of_value hvalue hd, ← hd]
  | _ =>
    obtain rfl : u = _ := by
      cases u <;> cases h
      rfl
    exact hq

theorem feed_of_reading {p q : Progress} {t u : Token} (h : u.reading = t.reading) {s : Span}
    (hq : p.feed ⟨t, s⟩ = .ok q) : p.feed ⟨u, s⟩ = .ok q := by
  have hnewline : u = .newline ↔ t = .newline := by
    cases t <;> cases u <;> simp_all [Token.reading]
  unfold feed at hq ⊢
  split at hq
  · rename_i ht
    rw [if_pos (hnewline.mpr ht)]
    exact hq
  · rename_i ht
    rw [if_neg (fun hu => ht (hnewline.mp hu))]
    exact step_of_reading h hq

/-- What is read does not depend on how its numbers are written. -/
theorem feedAll_of_reading {p q : Progress} {w v : List Token}
    (h : v.map Token.reading = w.map Token.reading)
    (hq : p.feedAll (Token.unlocated w) = .ok q) : p.feedAll (Token.unlocated v) = .ok q := by
  induction w generalizing p v with
  | nil =>
    obtain rfl := List.map_eq_nil_iff.mp h
    exact hq
  | cons t w ih =>
    obtain ⟨u, v, rfl, hu, hv⟩ := List.map_eq_cons_iff.mp h
    rw [Token.unlocated, List.map_cons, feedAll] at hq ⊢
    cases ht : p.feed ⟨t, .nowhere⟩ with
    | error e =>
      rw [ht] at hq
      cases hq
    | ok r =>
      rw [ht] at hq
      rw [feed_of_reading hu ht]
      exact ih hv hq

end Progress

/-- Sources with the same words, numbers compared by value, have the same C text. -/
theorem Source.compile_of_reading {s s' : Source}
    (h : s'.words.map Token.reading = s.words.map Token.reading) {f : C.Format} {text : String}
    (htext : s.compile f = .ok text) : s'.compile f = .ok text := by
  cases hp : s.parse with
  | error e =>
    rw [compile, hp] at htext
    cases htext
  | ok p =>
    have herase := s.parse_erase
    have herase' := s'.parse_erase
    rw [hp] at herase
    cases hq : Progress.start.feedAll (Token.unlocated (s.words ++ [.eof])) with
    | error e =>
      rw [BareBones.parse, hq] at herase
      cases herase
    | ok q =>
      have hreading : (s'.words ++ [Token.eof]).map Token.reading =
          (s.words ++ [Token.eof]).map Token.reading := by
        rw [List.map_append, h, List.map_append]
      rw [BareBones.parse, Progress.feedAll_of_reading hreading hq] at herase'
      rw [BareBones.parse, hq, ← herase'] at herase
      obtain ⟨p', hp', hsame⟩ := Reading.erase_eq_ok herase.symm
      rw [compile, hp] at htext
      have htoC : p'.toC f = p.toC f := by rw [← p'.toC_erase, hsame, p.toC_erase]
      rw [compile, hp', ← htext]
      exact congrArg Except.ok htoC

theorem Source.compile_of_repadded {s s' : Source}
    (h : List.Forall₂ Token.Repadded s.words s'.words) (f : C.Format) (text : String) :
    s.compile f = .ok text ↔ s'.compile f = .ok text := by
  have hreading := map_reading_of_repadded h
  exact ⟨compile_of_reading hreading, compile_of_reading hreading.symm⟩

end BareBones
