import BareBones.Proofs.C.Occurrences
import BareBones.Proofs.C.StringLiteral

/-!
What `print` statements print. A call of `printf` gets one format for all its arguments,
in which the percent signs of the texts are doubled. C first decodes the escapes of the
format and only then looks for conversions, so the call prints the arguments one after
the other exactly when no escape stands for a percent sign or for the end of the format
and none goes on into the next argument (`PrintArg.printed_iff_inert`). That a single
store shows every other case is a matter of counting: with values of two digits a
conversion prints as many bytes as it takes, and only doubled percent signs get shorter.
-/

namespace BareBones

open C.Lexeme (parens braces)

namespace C

/-! ## Formatted output -/

def decimal (v : Int) : List UInt8 := (toString v).toList.flatMap String.utf8EncodeChar

/-- Output and unused values, with `bs` in front. -/
def emit (bs : List UInt8) (r : List UInt8 × List Int) : List UInt8 × List Int := (bs ++ r.1, r.2)

/-- What is printed for a format and a list of values, and the values that remain. `%%`
prints a percent sign, `%d` the next value, and a zero byte ends the format. There is no
result for another conversion or a missing value. -/
def printf : List UInt8 → List Int → Option (List UInt8 × List Int)
  | [], vs => some ([], vs)
  | b :: fmt, vs =>
    if b = 0 then some ([], vs)
    else if b = 37 then
      match fmt with
      | [] => none
      | c :: fmt =>
        if c = 37 then (printf fmt vs).map (emit [37])
        else if c = 100 then
          match vs with
          | [] => none
          | v :: vs => (printf fmt vs).map (emit (decimal v))
        else none
    else (printf fmt vs).map (emit [b])

/-- What a call prints when `store` holds the values of the variables. -/
def PrintCall.printed? (call : PrintCall) (store : String → Int) :
    Option (List UInt8 × List Int) :=
  (decode? call.format.toList).bind fun fmt => printf fmt (call.values.map store)

theorem emit_emit (as bs : List UInt8) (r : List UInt8 × List Int) :
    emit as (emit bs r) = emit (as ++ bs) r := by
  simp [emit]

theorem printf_percent (fmt : List UInt8) (vs : List Int) :
    printf (37 :: 37 :: fmt) vs = (printf fmt vs).map (emit [37]) := by
  simp [printf]

theorem printf_conversion (fmt : List UInt8) (v : Int) (vs : List Int) :
    printf (37 :: 100 :: fmt) (v :: vs) = (printf fmt vs).map (emit (decimal v)) := by
  simp [printf]

theorem printf_cons {b : UInt8} (hpercent : 37 ≠ b) (hnull : 0 ≠ b) (fmt : List UInt8)
    (vs : List Int) : printf (b :: fmt) vs = (printf fmt vs).map (emit [b]) := by
  cases fmt <;> cases vs <;> simp [printf, hpercent.symm, hnull.symm]

/-- Bytes that mean nothing to `printf` are printed as they are. -/
theorem printf_append {bs : List UInt8} (hpercent : 37 ∉ bs) (hnull : 0 ∉ bs) (fmt : List UInt8)
    (vs : List Int) : printf (bs ++ fmt) vs = (printf fmt vs).map (emit bs) := by
  induction bs with
  | nil => exact Option.map_id'.symm
  | cons b bs ih =>
    rw [List.mem_cons, not_or] at hpercent hnull
    rw [List.cons_append, printf_cons hpercent.1 hnull.1, ih hpercent.2 hnull.2, Option.map_map]
    rfl

/-- With values of two digits, nothing but doubled percent signs and what follows a zero
byte makes the output shorter than the format. -/
theorem printf_length {fmt : List UInt8} {vs : List Int} {r : List UInt8 × List Int}
    (hvs : ∀ v ∈ vs, (decimal v).length = 2) (h : printf fmt vs = some r) :
    2 * r.1.length + fmt.count 37 + (if 0 ∈ fmt then 2 else 0) ≤ 2 * fmt.length + vs.length := by
  fun_induction printf fmt vs generalizing r with
  | case1 vs =>
    cases h
    simp
  | case2 fmt vs =>
    -- whatever stands behind the zero byte is lost
    cases h
    have hcount : fmt.count 37 ≤ fmt.length := List.count_le_length
    simp only [List.length_nil, List.count_cons, List.length_cons, List.mem_cons, true_or, if_true,
      beq_iff_eq]
    rw [if_neg (by decide)]
    omega
  | case4 vs fmt _ ih =>
    obtain ⟨r, hr, rfl⟩ := Option.map_eq_some_iff.mp h
    have hrest := ih hvs hr
    have hmem : 0 ∈ (37 :: 37 :: fmt : List UInt8) ↔ 0 ∈ fmt := by simp
    simp only [emit, List.length_append, List.length_cons, List.length_nil,
      List.count_cons_self, hmem]
    omega
  | case6 fmt v vs _ _ ih =>
    obtain ⟨r, hr, rfl⟩ := Option.map_eq_some_iff.mp h
    obtain ⟨hv, hvs⟩ := List.forall_mem_cons.mp hvs
    have hrest := ih hvs hr
    have hmem : 0 ∈ (37 :: 100 :: fmt : List UInt8) ↔ 0 ∈ fmt := by simp
    have hcount : (37 :: 100 :: fmt : List UInt8).count 37 = fmt.count 37 + 1 := by simp
    simp only [emit, List.length_append, List.length_cons, hv, hcount, hmem]
    omega
  | case8 b fmt vs hnull hpercent ih =>
    obtain ⟨r, hr, rfl⟩ := Option.map_eq_some_iff.mp h
    have hrest := ih hvs hr
    have hmem : 0 ∈ b :: fmt ↔ 0 ∈ fmt := by simp [Ne.symm hnull]
    have hcount : (b :: fmt).count 37 = fmt.count 37 := List.count_cons_of_ne hpercent
    simp only [emit, List.length_append, List.length_cons, List.length_nil, hcount, hmem]
    omega
  -- a percent sign that begins neither
  | case3 | case5 | case7 => cases h

/-! ## Bytes of formats -/

namespace Element

theorem mem_double {d e : Element} : d ∈ e.double ↔ d = e := by
  unfold double
  split <;> simp

theorem percent_mem_bytes_iff {e : Element} (he : e.defined = true) :
    37 ∈ e.bytes ↔ e = .plain '%' ∨ e.code? = some 37 :=
  mem_bytes_iff he (by decide) (by decide)

theorem null_mem_bytes_iff {e : Element} (he : e.defined = true) :
    0 ∈ e.bytes ↔ e = .plain '\x00' ∨ e.code? = some 0 :=
  mem_bytes_iff he (by decide) (by decide)

/-- Nothing in the element means anything to `printf` but a percent sign as such. -/
structure Harmless (e : Element) : Prop where
  percent : e.code? ≠ some 37
  null : e.code? ≠ some 0
  plain : e ≠ .plain '\x00'

instance decidableHarmless (e : Element) : Decidable e.Harmless :=
  decidable_of_iff (e.code? ≠ some 37 ∧ e.code? ≠ some 0 ∧ e ≠ .plain '\x00')
    ⟨fun h => ⟨h.1, h.2.1, h.2.2⟩, fun h => ⟨h.percent, h.null, h.plain⟩⟩

end Element

theorem printf_element {e : Element} (hd : e.defined = true) (he : e.Harmless)
    (fmt : List UInt8) (vs : List Int) :
    printf (e.double.flatMap Element.bytes ++ fmt) vs = (printf fmt vs).map (emit e.bytes) := by
  by_cases hp : e = .plain '%'
  · subst hp
    exact printf_percent fmt vs
  · have hpercent : 37 ∉ e.bytes := by
      rw [Element.percent_mem_bytes_iff hd]
      exact fun hor => hor.elim hp he.percent
    have hnull : 0 ∉ e.bytes := by
      rw [Element.null_mem_bytes_iff hd]
      exact fun hor => hor.elim he.plain he.null
    rw [Element.double, if_neg hp, List.flatMap_cons, List.flatMap_nil, List.append_nil,
      printf_append hpercent hnull]

/-- Harmless elements with doubled percent signs are printed as their own bytes. -/
theorem printf_elements {es : List Element} (hdefined : ∀ e ∈ es, e.defined = true)
    (h : ∀ e ∈ es, e.Harmless) (fmt : List UInt8) (vs : List Int) :
    printf ((es.flatMap Element.double).flatMap Element.bytes ++ fmt) vs =
      (printf fmt vs).map (emit (es.flatMap Element.bytes)) := by
  induction es with
  | nil => exact Option.map_id'.symm
  | cons e es ih =>
    obtain ⟨he, hes⟩ := List.forall_mem_cons.mp h
    obtain ⟨hd, hds⟩ := List.forall_mem_cons.mp hdefined
    rw [List.flatMap_cons, List.flatMap_append, List.append_assoc, printf_element hd he,
      ih hds hes, Option.map_map, List.flatMap_cons]
    exact congrArg (Option.map · _) (funext fun r => emit_emit _ _ r)

/-- Doubling adds a byte for each percent sign. -/
theorem length_flatMap_double (es : List Element) :
    ((es.flatMap Element.double).flatMap Element.bytes).length =
      (es.flatMap Element.bytes).length + es.count (.plain '%') := by
  induction es with
  | nil => rfl
  | cons e es ih =>
    rw [List.flatMap_cons, List.flatMap_append, List.length_append, ih, List.flatMap_cons,
      List.length_append, List.count_cons]
    by_cases hp : e = .plain '%'
    · subst hp
      have htwo : ((Element.plain '%').double.flatMap Element.bytes).length = 2 := rfl
      have hone : (Element.plain '%').bytes.length = 1 := rfl
      rw [htwo, hone, if_pos (by simp)]
      omega
    · simp [Element.double, hp]
      omega

theorem count_flatMap_double (es : List Element) :
    (es.flatMap Element.double).count (.plain '%') = 2 * es.count (.plain '%') := by
  induction es with
  | nil => rfl
  | cons e es ih =>
    rw [List.flatMap_cons, List.count_append, ih, List.count_cons]
    by_cases hp : e = .plain '%'
    · subst hp
      have htwo : (Element.plain '%').double.count (.plain '%') = 2 := rfl
      rw [htwo, if_pos (by simp)]
      omega
    · simp [Element.double, hp]

/-- Every percent sign of a literal is one of its bytes. When these are all, none is
written as an escape. -/
theorem count_percent_le (es : List Element) :
    es.count (.plain '%') ≤ (es.flatMap Element.bytes).count 37 ∧
      ((es.flatMap Element.bytes).count 37 = es.count (.plain '%') →
        ∀ e ∈ es, 37 ∈ e.bytes → e = .plain '%') := by
  induction es with
  | nil => simp
  | cons e es ih =>
    obtain ⟨hle, heq⟩ := ih
    rw [List.flatMap_cons, List.count_append, List.count_cons]
    by_cases hp : e = .plain '%'
    · subst hp
      have hone : (Element.plain '%').bytes.count 37 = 1 := rfl
      rw [hone, if_pos (beq_self_eq_true _)]
      refine ⟨by omega, fun h d hd hmem => ?_⟩
      rcases List.mem_cons.mp hd with rfl | hd
      · rfl
      · exact heq (by omega) d hd hmem
    · rw [if_neg (by simpa using hp)]
      refine ⟨by omega, fun h d hd hmem => ?_⟩
      rcases List.mem_cons.mp hd with rfl | hd
      · have hpos : 1 ≤ d.bytes.count 37 := List.one_le_count_iff.mpr hmem
        omega
      · exact heq (by omega) d hd hmem

end C

/-! ## Arguments of `print` -/

namespace PrintArg

open C (Element elements decode? decimal)

/-- The characters that a text has of its own. -/
def own : PrintArg → List Char
  | text raw => raw.toList
  | var _ => []

/-- What an argument is to print: the bytes of its text, or a value in decimal. -/
def spoken (store : String → Int) : PrintArg → List UInt8
  | text raw => (decode? raw.toList).getD []
  | var x => decimal (store x)

/-- All escapes in the texts have a meaning in C. -/
def Decodable (args : List PrintArg) : Prop := ∀ a ∈ args, (decode? a.own).isSome = true

/-- No escape at the end of an argument goes on into what follows in the format. -/
def AllApart : List PrintArg → Prop
  | [] => True
  | a :: args => C.Apart a.formatChars (args.flatMap formatChars) ∧ AllApart args

/-- The arguments mean nothing to C beyond their own escapes: no numeric escape is that
of a percent sign or of the end of a string, no text has the character zero, and no
escape goes on into the next argument. -/
structure Inert (args : List PrintArg) : Prop where
  apart : AllApart args
  harmless : ∀ a ∈ args, ∀ e ∈ elements a.own, e.Harmless

/-- The elements that an argument has in a format. -/
def formatElements : PrintArg → List Element
  | text raw => (elements raw.toList).flatMap Element.double
  | var _ => [.plain '%', .plain 'd']

variable {args : List PrintArg} {a : PrintArg}

theorem defined_own (h : (decode? a.own).isSome = true) :
    ∀ e ∈ elements a.own, e.defined = true := by
  obtain ⟨bs, hbs⟩ := Option.isSome_iff_exists.mp h
  exact (C.decode?_eq_some_iff.mp hbs).1

theorem spoken_text {raw : String} (h : (decode? raw.toList).isSome = true)
    (store : String → Int) :
    (text raw).spoken store = (elements raw.toList).flatMap Element.bytes := by
  obtain ⟨bs, hbs⟩ := Option.isSome_iff_exists.mp h
  rw [spoken, hbs, Option.getD_some, (C.decode?_eq_some_iff.mp hbs).2]

theorem elements_formatChars (h : (decode? a.own).isSome = true) :
    elements a.formatChars = a.formatElements := by
  cases a with
  | text raw =>
    refine C.elements_doubled fun hmem => ?_
    exact absurd (defined_own h _ hmem) (by decide)
  | var x => rfl

theorem defined_formatElements (h : (decode? a.own).isSome = true) :
    ∀ e ∈ a.formatElements, e.defined = true := by
  intro e he
  cases a with
  | text raw =>
    obtain ⟨d, hd, hed⟩ := List.mem_flatMap.mp he
    rw [Element.mem_double.mp hed]
    exact defined_own h d hd
  | var x =>
    simp only [formatElements, List.mem_cons, List.not_mem_nil, or_false] at he
    rcases he with rfl | rfl <;> rfl

theorem mem_formatElements {e : Element} (h : e ∈ elements a.own) : e ∈ a.formatElements := by
  cases a with
  | text raw => exact List.mem_flatMap.mpr ⟨e, h, Element.mem_double.mpr rfl⟩
  | var x => cases h

/-- Arguments that are apart have their own elements in the format. -/
theorem elements_flatMap_formatChars (hd : Decodable args) (h : AllApart args) :
    elements (args.flatMap formatChars) = args.flatMap formatElements := by
  induction args with
  | nil => rfl
  | cons a args ih =>
    obtain ⟨hda, hdargs⟩ := List.forall_mem_cons.mp hd
    rw [List.flatMap_cons, C.elements_append_of_apart h.1, elements_formatChars hda,
      ih hdargs h.2, List.flatMap_cons]

theorem exists_absorbed (hd : Decodable args) :
    ∃ n, ((elements (args.flatMap formatChars)).flatMap Element.bytes).length + n =
        ((args.flatMap formatElements).flatMap Element.bytes).length ∧
      (elements (args.flatMap formatChars)).count (.plain '%') =
        (args.flatMap formatElements).count (.plain '%') ∧
      (n = 0 → AllApart args) := by
  induction args with
  | nil => exact ⟨0, rfl, rfl, fun _ => trivial⟩
  | cons a args ih =>
    obtain ⟨hda, hdargs⟩ := List.forall_mem_cons.mp hd
    obtain ⟨n, hlength, hcount, hapart⟩ := ih hdargs
    have hlone : .lone ∉ elements a.formatChars := by
      rw [elements_formatChars hda]
      intro hmem
      cases defined_formatElements hda _ hmem
    obtain ⟨m, hlength', hcount', hapart'⟩ :=
      C.exists_absorbed_append hlone (args.flatMap formatChars)
    rw [elements_formatChars hda] at hlength' hcount'
    simp only [List.flatMap_append, List.length_append, List.count_append] at hlength' hcount'
    refine ⟨m + n, ?_, ?_, fun hzero => ⟨hapart' (by omega), hapart (by omega)⟩⟩
    · simp only [List.flatMap_cons, List.flatMap_append, List.length_append]
      omega
    · simp only [List.flatMap_cons, List.count_append]
      omega

/-- With values of two digits, a format is longer than what is to be printed by half its
percent signs, those of the conversions apart. -/
theorem length_formatElements (hd : Decodable args) (store : String → Int)
    (hstore : ∀ x, (decimal (store x)).length = 2) :
    2 * ((args.flatMap formatElements).flatMap Element.bytes).length +
        (args.filterMap name?).length =
      2 * (args.flatMap (spoken store)).length +
        (args.flatMap formatElements).count (.plain '%') := by
  induction args with
  | nil => rfl
  | cons a args ih =>
    obtain ⟨hda, hdargs⟩ := List.forall_mem_cons.mp hd
    have hrest := ih hdargs
    simp only [List.flatMap_cons, List.flatMap_append, List.length_append, List.count_append]
    cases a with
    | text raw =>
      have hlength := C.length_flatMap_double (elements raw.toList)
      have hcount := C.count_flatMap_double (elements raw.toList)
      have hname : ((text raw :: args).filterMap name?).length =
        (args.filterMap name?).length := rfl
      rw [spoken_text hda, formatElements, hlength, hcount, hname]
      omega
    | var x =>
      have hname : ((var x :: args).filterMap name?).length =
        (args.filterMap name?).length + 1 := rfl
      have hlength : ((var x).formatElements.flatMap Element.bytes).length = 2 := rfl
      have hcount : (var x).formatElements.count (.plain '%') = 1 := rfl
      rw [hname, hlength, hcount, spoken, hstore x]
      omega

theorem printf_formatElements (hd : Decodable args)
    (h : ∀ a ∈ args, ∀ e ∈ elements a.own, e.Harmless) (store : String → Int) :
    C.printf ((args.flatMap formatElements).flatMap Element.bytes)
      ((args.filterMap name?).map store) = some (args.flatMap (spoken store), []) := by
  induction args with
  | nil => rfl
  | cons a args ih =>
    obtain ⟨hda, hdargs⟩ := List.forall_mem_cons.mp hd
    obtain ⟨ha, hargs⟩ := List.forall_mem_cons.mp h
    have hrest := ih hdargs hargs
    rw [List.flatMap_cons, List.flatMap_append, List.flatMap_cons]
    cases a with
    | text raw =>
      have hname : (text raw :: args).filterMap name? = args.filterMap name? := rfl
      have htext := C.printf_elements (defined_own hda) ha
        ((args.flatMap formatElements).flatMap Element.bytes) ((args.filterMap name?).map store)
      rw [hrest] at htext
      rw [hname, spoken_text hda]
      exact htext
    | var x =>
      have hname : (var x :: args).filterMap name? = x :: args.filterMap name? := rfl
      have hbytes : (var x).formatElements.flatMap Element.bytes = [37, 100] := rfl
      rw [hname, hbytes, List.map_cons, List.cons_append, List.cons_append, List.nil_append,
        C.printf_conversion, hrest]
      rfl

theorem printed_of_inert (hd : Decodable args) (h : Inert args) (store : String → Int) :
    (printCall args).printed? store = some (args.flatMap (spoken store), []) := by
  have hdecode : decode? (printCall args).format.toList =
      some ((args.flatMap formatElements).flatMap Element.bytes) := by
    rw [C.decode?_eq_some_iff, printCall, String.toList_ofList,
      elements_flatMap_formatChars hd h.apart]
    refine ⟨fun e he => ?_, rfl⟩
    obtain ⟨a, ha, hea⟩ := List.mem_flatMap.mp he
    exact defined_formatElements (hd a ha) e hea
  rw [C.PrintCall.printed?, hdecode]
  exact printf_formatElements hd h.harmless store

/-- If the arguments are printed as they should be when every variable is ten, then
nothing is lost on the way: every digit that an escape takes from the next text, every
escape of a percent sign and every zero byte would leave the output too short. -/
theorem nothing_lost (hd : Decodable args)
    (h : (printCall args).printed? (fun _ => 10) =
      some (args.flatMap (spoken fun _ => 10), [])) :
    AllApart args ∧ (∀ e ∈ args.flatMap formatElements, 37 ∈ e.bytes → e = .plain '%') ∧
      ∀ e ∈ args.flatMap formatElements, 0 ∉ e.bytes := by
  obtain ⟨fmt, hfmt, hprinted⟩ := Option.bind_eq_some_iff.mp h
  rw [C.decode?_eq_some_iff, printCall, String.toList_ofList] at hfmt
  obtain ⟨-, rfl⟩ := hfmt
  -- `houtput` bounds the output from above by the format, `hbalance` says how long it has
  -- to be, and `exists_absorbed` and `count_percent_le` compare the format with its parts
  have hten : (decimal 10).length = 2 := rfl
  have houtput := C.printf_length (by simp [hten]) hprinted
  have hbalance := length_formatElements hd (fun _ => 10) fun _ => hten
  obtain ⟨n, hlength, hcount, hapart⟩ := exists_absorbed hd
  obtain ⟨hpercents, hescaped⟩ := C.count_percent_le (elements (args.flatMap formatChars))
  have hvalues : ((printCall args).values.map fun _ => (10 : Int)).length =
      (args.filterMap name?).length := List.length_map _
  rw [hvalues] at houtput
  simp only at houtput
  have hn : n = 0 := by omega
  rw [elements_flatMap_formatChars hd (hapart hn)] at houtput hescaped hpercents hlength
  refine ⟨hapart hn, hescaped (by omega), fun e he hzero => ?_⟩
  rw [if_pos (List.mem_flatMap.mpr ⟨e, he, hzero⟩)] at houtput
  omega

theorem inert_of_printed (hd : Decodable args)
    (h : (printCall args).printed? (fun _ => 10) =
      some (args.flatMap (spoken fun _ => 10), [])) : Inert args := by
  obtain ⟨hapart, hpercent, hzero⟩ := nothing_lost hd h
  refine ⟨hapart, fun a ha e he => ?_⟩
  have hdefined := defined_own (hd a ha) e he
  have hmem : e ∈ args.flatMap formatElements :=
    List.mem_flatMap.mpr ⟨a, ha, mem_formatElements he⟩
  have hnull := hzero e hmem
  rw [Element.null_mem_bytes_iff hdefined, not_or] at hnull
  refine ⟨fun hcode => ?_, hnull.2, hnull.1⟩
  obtain rfl := hpercent e hmem ((Element.percent_mem_bytes_iff hdefined).mpr (Or.inr hcode))
  cases hcode

/-- Arguments whose texts have a meaning in C are printed one after the other, whatever
the variables hold, exactly when they are inert. -/
theorem printed_iff_inert (hd : Decodable args) :
    (∀ store, (printCall args).printed? store = some (args.flatMap (spoken store), [])) ↔
      Inert args :=
  ⟨fun h => inert_of_printed hd (h _), printed_of_inert hd⟩

instance decidableDecodable : Decidable (Decodable args) :=
  inferInstanceAs (Decidable (∀ a ∈ args, (decode? a.own).isSome = true))

instance decidableAllApart : (args : List PrintArg) → Decidable (AllApart args)
  | [] => .isTrue trivial
  | _ :: args => @instDecidableAnd _ _ _ (decidableAllApart args)

instance decidableInert : Decidable (Inert args) :=
  decidable_of_iff (AllApart args ∧ ∀ a ∈ args, ∀ e ∈ elements a.own, e.Harmless)
    ⟨fun h => ⟨h.1, h.2⟩, fun h => ⟨h.apart, h.harmless⟩⟩

end PrintArg

/-- The calls of `printf` in the C text of an accepted program are those of its `print`
statements. A call whose texts have a meaning in C prints these texts and the values of
its variables in order, performing no other conversion, exactly when no numeric escape
in them is that of a percent sign or of zero, no text has the character zero, and no
escape at the end of a text goes on into the next argument. -/
theorem Source.printed_exactly_when_inert {s : Source} {p : Program} (h : s.parse = .ok p)
    (f : C.Format) :
    ∃ text body, s.compile f = .ok text ∧
      C.read text = ("#include <stdio.h>",
        [.word "int", .word "main"] ++ parens [.word "void"] ++ braces body) ∧
      C.occurrences C.printCall? body = p.prints.map PrintArg.printCall ∧
      ∀ args ∈ p.prints, PrintArg.Decodable args →
        ((∀ store, (PrintArg.printCall args).printed? store =
            some (args.flatMap (PrintArg.spoken store), [])) ↔ PrintArg.Inert args) := by
  obtain ⟨text, htext, hread⟩ := Source.compile_body h f
  exact ⟨text, p.body, htext, hread, p.occurrences_printCall?,
    fun args _ hd => PrintArg.printed_iff_inert hd⟩

/-- A percent sign before a tab, an octal escape before a variable, and an escaped quote
before what looks like a conversion. -/
def Source.percentTexts : Source where
  name := "percent"
  text := "let x = 3; print(\"100%\\t\\41\", x, \"1\\\"%d\");"

theorem Source.percentTexts_printed : ∃ p text body, percentTexts.parse = .ok p ∧
    percentTexts.compile .compact = .ok text ∧
    C.read text = ("#include <stdio.h>",
      [.word "int", .word "main"] ++ parens [.word "void"] ++ braces body) ∧
    C.occurrences C.printCall? body = [⟨"100%%\\t\\41%d1\\\"%%d", ["x"]⟩] ∧
    ∃ args ∈ p.prints, PrintArg.Decodable args ∧ PrintArg.Inert args ∧
      ∀ store, (PrintArg.printCall args).printed? store =
        some ([49, 48, 48, 37, 9, 33] ++ C.decimal (store "x") ++ [49, 34, 37, 100], []) := by
  have htest : percentTexts.parse.toOption.any (fun p =>
      p.prints == [[.text "100%\\t\\41", .var "x", .text "1\\\"%d"]]) = true := by decide +kernel
  obtain ⟨p, hp, hfacts⟩ := Source.exists_of_test htest
  have hprints : p.prints = [[.text "100%\\t\\41", .var "x", .text "1\\\"%d"]] := by
    simpa using hfacts
  obtain ⟨text, body, htext, hread, hcalls, hprinted⟩ :=
    Source.printed_exactly_when_inert hp .compact
  rw [hprints] at hcalls hprinted
  have hdecodable : PrintArg.Decodable [.text "100%\\t\\41", .var "x", .text "1\\\"%d"] := by
    decide +kernel
  have hinert : PrintArg.Inert [.text "100%\\t\\41", .var "x", .text "1\\\"%d"] := by
    decide +kernel
  refine ⟨p, text, body, hp, htext, hread, hcalls.trans (by decide +kernel), _,
    hprints ▸ List.mem_singleton_self _, hdecodable, hinert, fun store => ?_⟩
  rw [(hprinted _ (List.mem_singleton_self _) hdecodable).mpr hinert store]
  have hfirst : C.decode? "100%\\t\\41".toList = some [49, 48, 48, 37, 9, 33] := by
    decide +kernel
  have hlast : C.decode? "1\\\"%d".toList = some [49, 34, 37, 100] := by decide +kernel
  simp only [List.flatMap_cons, List.flatMap_nil, PrintArg.spoken, hfirst, hlast,
    Option.getD_some, List.append_assoc, List.append_nil]

/-- An escape that stands for a percent sign, and one that goes on into the next text. -/
def Source.runOnEscapes : Source where
  name := "escapes"
  text := "print(\"\\45d\"); print(\"\\1\", \"2\");"

/-- The first call asks for a value that it is not given, and the second prints a newline
instead of two characters. -/
theorem Source.runOnEscapes_printed : ∃ p, runOnEscapes.parse = .ok p ∧
    p.prints = [[.text "\\45d"], [.text "\\1", .text "2"]] ∧
    (∀ args ∈ p.prints, PrintArg.Decodable args ∧ ¬ PrintArg.Inert args) ∧
    ∀ store, ([.text "\\45d"].flatMap (PrintArg.spoken store) = [37, 100] ∧
        (PrintArg.printCall [.text "\\45d"]).printed? store = none) ∧
      ([.text "\\1", .text "2"].flatMap (PrintArg.spoken store) = [1, 50] ∧
        (PrintArg.printCall [.text "\\1", .text "2"]).printed? store = some ([10], [])) := by
  have htest : runOnEscapes.parse.toOption.any (fun p =>
      p.prints == [[.text "\\45d"], [.text "\\1", .text "2"]]) = true := by decide +kernel
  obtain ⟨p, hp, hfacts⟩ := Source.exists_of_test htest
  have hprints : p.prints = [[.text "\\45d"], [.text "\\1", .text "2"]] := by
    simpa using hfacts
  exact ⟨p, hp, hprints, by rw [hprints]; decide +kernel, fun store => ⟨⟨rfl, rfl⟩, rfl, rfl⟩⟩

end BareBones
