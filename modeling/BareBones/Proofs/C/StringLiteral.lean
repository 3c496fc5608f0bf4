import BareBones.Proofs.C.Reference

/-!
String literals of C. What stands between the quotes is a list of elements, each as long
as it can be: plain characters, and escapes that name a byte by a letter, by up to three
octal digits or by any number of hexadecimal ones. When two pieces of a literal are put
side by side, the elements are those of the pieces unless an escape at the end of the
first goes on with digits of the second (`elements_append_of_apart`,
`exists_absorbed_append`).
-/

namespace BareBones.C

/-! ## Elements -/

def isOctalDigit (c : Char) : Bool := '0' ≤ c && c ≤ '7'

def isHexDigit (c : Char) : Bool :=
  '0' ≤ c && c ≤ '9' || 'a' ≤ c && c ≤ 'f' || 'A' ≤ c && c ≤ 'F'

def digitValue (c : Char) : Nat :=
  if c ≤ '9' then c.toNat - '0'.toNat
  else if c ≤ 'F' then c.toNat - 'A'.toNat + 10
  else c.toNat - 'a'.toNat + 10

def numeralValue (base : Nat) (digits : List Char) : Nat :=
  digits.foldl (fun n c => base * n + digitValue c) 0

/-- The letters that name a byte behind a backslash. -/
def simpleEscapes : List (Char × UInt8) :=
  [('n', 10), ('t', 9), ('v', 11), ('b', 8), ('r', 13), ('f', 12), ('a', 7), ('\\', 92),
    ('?', 63), ('\x27', 39), ('"', 34)]

inductive Element where
  | plain (c : Char)
  /-- A backslash with nothing behind it. -/
  | lone
  | simple (c : Char)
  | octal (digits : List Char)
  | hex (digits : List Char)
deriving DecidableEq

namespace Element

/-- The element that a character begins. -/
def start (c : Char) : Element := if c = '\\' then lone else plain c

/-- The element with one more character, if it goes on with it. -/
def extend? : Element → Char → Option Element
  | plain _, _ | simple _, _ => none
  | lone, c =>
    some (if isOctalDigit c then octal [c] else if c = 'x' then hex [] else simple c)
  | octal ds, c => if isOctalDigit c ∧ ds.length < 3 then some (octal (ds ++ [c])) else none
  | hex ds, c => if isHexDigit c then some (hex (ds ++ [c])) else none

/-- The number in a numeric escape. -/
def code? : Element → Option Nat
  | octal ds => some (numeralValue 8 ds)
  | hex ds => some (numeralValue 16 ds)
  | _ => none

/-- Whether C gives the element a meaning. -/
def defined : Element → Bool
  | plain _ => true
  | lone => false
  | simple c => (simpleEscapes.lookup c).isSome
  | octal ds => numeralValue 8 ds < 256
  | hex ds => ds ≠ [] && numeralValue 16 ds < 256

/-- The bytes of a defined element. -/
def bytes : Element → List UInt8
  | plain c => String.utf8EncodeChar c
  | lone => [92]
  | simple c => [(simpleEscapes.lookup c).getD 92]
  | octal ds => [UInt8.ofNat (numeralValue 8 ds)]
  | hex ds => [UInt8.ofNat (numeralValue 16 ds)]

end Element

/-- The elements of `cs` when `e` has been begun. -/
def elementsFrom : Element → List Char → List Element
  | e, [] => [e]
  | e, c :: cs =>
    match e.extend? c with
    | some longer => elementsFrom longer cs
    | none => e :: elementsFrom (.start c) cs

/-- The elements of what stands between two quotes. -/
def elements : List Char → List Element
  | [] => []
  | c :: cs => elementsFrom (.start c) cs

/-- The bytes of a literal, if all its elements have a meaning. -/
def decode? (cs : List Char) : Option (List UInt8) :=
  if (elements cs).all Element.defined then some ((elements cs).flatMap Element.bytes) else none

theorem decode?_eq_some_iff {cs : List Char} {bs : List UInt8} :
    decode? cs = some bs ↔
      (∀ e ∈ elements cs, e.defined = true) ∧ (elements cs).flatMap Element.bytes = bs := by
  simp [decode?, List.all_eq_true]

/-! ## Characters of numeric escapes -/

theorem isHexDigit_of_isOctalDigit {c : Char} (h : isOctalDigit c = true) :
    isHexDigit c = true := by
  simp only [isOctalDigit, isHexDigit, Bool.and_eq_true, Bool.or_eq_true, decide_eq_true_eq,
    Char.le_def, UInt32.le_iff_toNat_le] at h ⊢
  have h7 : '7'.val.toNat = 55 := rfl
  have h9 : '9'.val.toNat = 57 := rfl
  omega

theorem isHexDigit.toNat_le {c : Char} (h : isHexDigit c = true) :
    c.val.toNat ≤ 102 ∧ 48 ≤ c.val.toNat ∧ c.val.toNat ≠ 92 := by
  simp only [isHexDigit, Bool.and_eq_true, Bool.or_eq_true, decide_eq_true_eq,
    Char.le_def, UInt32.le_iff_toNat_le] at h
  have h0 : '0'.val.toNat = 48 := rfl
  have h9 : '9'.val.toNat = 57 := rfl
  have ha : 'a'.val.toNat = 97 := rfl
  have hf : 'f'.val.toNat = 102 := rfl
  have hA : 'A'.val.toNat = 65 := rfl
  have hF : 'F'.val.toNat = 70 := rfl
  omega

theorem isHexDigit.ne_backslash {c : Char} (h : isHexDigit c = true) : c ≠ '\\' := by
  rintro rfl
  exact absurd h (by decide)

theorem isHexDigit.ne_percent {c : Char} (h : isHexDigit c = true) : c ≠ '%' := by
  rintro rfl
  exact absurd h (by decide)

theorem isHexDigit.length_utf8EncodeChar {c : Char} (h : isHexDigit c = true) :
    (String.utf8EncodeChar c).length = 1 := by
  rw [String.length_utf8EncodeChar, Char.utf8Size_eq_one_iff, UInt32.le_iff_toNat_le]
  have hle := isHexDigit.toNat_le h
  have h127 : (127 : UInt32).toNat = 127 := rfl
  omega

/-! ## Elements side by side -/

namespace Element

/-- What goes on with a further character is a backslash or a numeric escape. -/
theorem extend?_cases {e longer : Element} {c : Char} (h : e.extend? c = some longer) :
    e = lone ∨ ∃ ds, isHexDigit c = true ∧
      (e = octal ds ∧ longer = octal (ds ++ [c]) ∨ e = hex ds ∧ longer = hex (ds ++ [c])) := by
  cases e with
  | plain d => cases h
  | simple d => cases h
  | lone => exact Or.inl rfl
  | octal ds =>
    simp only [extend?] at h
    split at h
    · rename_i hc
      cases h
      exact Or.inr ⟨ds, isHexDigit_of_isOctalDigit hc.1, Or.inl ⟨rfl, rfl⟩⟩
    · cases h
  | hex ds =>
    simp only [extend?] at h
    split at h
    · rename_i hc
      cases h
      exact Or.inr ⟨ds, hc, Or.inr ⟨rfl, rfl⟩⟩
    · cases h

theorem ne_plain_of_extend? {e longer : Element} {c : Char} (h : e.extend? c = some longer)
    (d : Char) : longer ≠ plain d := by
  rcases extend?_cases h with rfl | ⟨ds, -, ⟨-, rfl⟩ | ⟨-, rfl⟩⟩
  · cases h
    split
    · simp
    · split <;> simp
  · simp
  · simp

/-- A percent sign belongs to no escape but `\%`. -/
theorem extend?_percent {e longer : Element} (h : e.extend? '%' = some longer) :
    longer = simple '%' := by
  rcases extend?_cases h with rfl | ⟨ds, hc, -⟩
  · cases h
    rfl
  · exact absurd hc (by decide)

end Element

theorem elementsFrom_of_some {e longer : Element} {c : Char} (h : e.extend? c = some longer)
    (cs : List Char) : elementsFrom e (c :: cs) = elementsFrom longer cs := by
  rw [elementsFrom, h]

theorem elementsFrom_of_none {e : Element} {cs : List Char}
    (h : ∀ c ∈ cs.head?, e.extend? c = none) : elementsFrom e cs = e :: elements cs := by
  cases cs with
  | nil => rfl
  | cons c cs =>
    have hc : e.extend? c = none := h c rfl
    rw [elementsFrom, hc]
    rfl

theorem elementsFrom_plain (d : Char) (cs : List Char) :
    elementsFrom (.plain d) cs = .plain d :: elements cs :=
  elementsFrom_of_none fun _ _ => rfl

theorem elements_cons_of_ne {c : Char} (h : c ≠ '\\') (cs : List Char) :
    elements (c :: cs) = .plain c :: elements cs := by
  rw [elements, Element.start, if_neg h, elementsFrom_plain]

theorem elements_append_of_plain {ds : List Char} (h : ∀ c ∈ ds, c ≠ '\\') (cs : List Char) :
    elements (ds ++ cs) = ds.map .plain ++ elements cs := by
  induction ds with
  | nil => rfl
  | cons d ds ih =>
    obtain ⟨hd, hds⟩ := List.forall_mem_cons.mp h
    rw [List.cons_append, elements_cons_of_ne hd, ih hds, List.map_cons, List.cons_append]

theorem elementsFrom_ne_nil (e : Element) (cs : List Char) : elementsFrom e cs ≠ [] := by
  induction cs generalizing e with
  | nil => simp [elementsFrom]
  | cons c cs ih =>
    rw [elementsFrom]
    split
    · exact ih _
    · simp

theorem elementsFrom_append {e last : Element} {xs : List Char} {init : List Element}
    (h : elementsFrom e xs = init ++ [last]) (ys : List Char) :
    elementsFrom e (xs ++ ys) = init ++ elementsFrom last ys := by
  induction xs generalizing e init with
  | nil =>
    obtain ⟨rfl, rfl⟩ : init = [] ∧ last = e := by
      simpa [elementsFrom, List.singleton_eq_append_iff] using h
    rfl
  | cons c xs ih =>
    rw [elementsFrom] at h
    rw [List.cons_append, elementsFrom]
    cases hx : e.extend? c with
    | some longer =>
      rw [hx] at h
      exact ih h
    | none =>
      rw [hx] at h
      cases init with
      | nil =>
        rw [List.nil_append, List.cons.injEq] at h
        exact absurd h.2 (elementsFrom_ne_nil _ _)
      | cons d init =>
        rw [List.cons_append, List.cons.injEq] at h
        obtain ⟨rfl, h⟩ := h
        rw [List.cons_append, ← ih h]

theorem elements_append {last : Element} {xs : List Char} {init : List Element}
    (h : elements xs = init ++ [last]) (ys : List Char) :
    elements (xs ++ ys) = init ++ elementsFrom last ys := by
  cases xs with
  | nil => simp [elements] at h
  | cons c xs => exact elementsFrom_append h ys

/-- No element at the end of `xs` goes on with the first character of `ys`. -/
def Apart (xs ys : List Char) : Prop :=
  ∀ e ∈ (elements xs).getLast?, ∀ c ∈ ys.head?, e.extend? c = none

instance decidableApart (xs ys : List Char) : Decidable (Apart xs ys) :=
  @Option.decidableForallMem _ _ (fun e => @Option.decidableForallMem _ _
    (fun c => inferInstanceAs (Decidable (e.extend? c = none))) _) _

theorem elements_append_of_apart {xs ys : List Char} (h : Apart xs ys) :
    elements (xs ++ ys) = elements xs ++ elements ys := by
  rcases List.eq_nil_or_concat' (elements xs) with hxs | ⟨init, last, hxs⟩
  · cases xs with
    | nil => rfl
    | cons c xs => exact absurd hxs (elementsFrom_ne_nil _ _)
  · have hlast : ∀ c ∈ ys.head?, last.extend? c = none := h last (by simp [hxs])
    rw [elements_append hxs, elementsFrom_of_none hlast, hxs, List.append_assoc]
    rfl

/-- An element takes the digits behind it that it goes on with, and remains one byte. -/
theorem elementsFrom_absorbs {e : Element} (he : e ≠ .lone) (cs : List Char) :
    ∃ ds rest longer, cs = ds ++ rest ∧ elementsFrom e cs = longer :: elements rest ∧
      (∀ c ∈ ds, isHexDigit c = true) ∧ longer.bytes.length = e.bytes.length ∧
      (longer = .plain '%' ↔ e = .plain '%') ∧
      (ds = [] → ∀ c ∈ cs.head?, e.extend? c = none) := by
  induction cs generalizing e with
  | nil => exact ⟨[], [], e, rfl, rfl, by simp, rfl, Iff.rfl, by simp⟩
  | cons c cs ih =>
    cases hx : e.extend? c with
    | none =>
      have hnone : ∀ d ∈ (c :: cs).head?, e.extend? d = none := by
        rintro d ⟨⟩
        exact hx
      exact ⟨[], c :: cs, e, rfl, elementsFrom_of_none hnone, by simp, rfl, Iff.rfl, fun _ => hnone⟩
    | some longer =>
      rcases Element.extend?_cases hx with rfl | ⟨digits, hc, hlonger⟩
      · exact absurd rfl he
      · have hne : longer ≠ .lone := by rcases hlonger with ⟨-, rfl⟩ | ⟨-, rfl⟩ <;> simp
        obtain ⟨ds, rest, longest, rfl, helements, hds, hlength, hpercent, -⟩ := ih hne
        refine ⟨c :: ds, rest, longest, rfl, ?_, ?_, ?_, ?_, by simp⟩
        · rw [elementsFrom_of_some hx, helements]
        · exact List.forall_mem_cons.mpr ⟨hc, hds⟩
        · rw [hlength]
          rcases hlonger with ⟨rfl, rfl⟩ | ⟨rfl, rfl⟩ <;> rfl
        · rw [hpercent]
          rcases hlonger with ⟨rfl, rfl⟩ | ⟨rfl, rfl⟩ <;> simp

theorem length_flatMap_bytes_plain {ds : List Char} (h : ∀ c ∈ ds, isHexDigit c = true) :
    ((ds.map Element.plain).flatMap Element.bytes).length = ds.length := by
  induction ds with
  | nil => rfl
  | cons d ds ih =>
    obtain ⟨hd, hds⟩ := List.forall_mem_cons.mp h
    have hone : (Element.plain d).bytes.length = 1 := isHexDigit.length_utf8EncodeChar hd
    rw [List.map_cons, List.flatMap_cons, List.length_append, hone, ih hds, List.length_cons]
    omega

theorem count_percent_plain {ds : List Char} (h : ∀ c ∈ ds, isHexDigit c = true) :
    (ds.map Element.plain).count (.plain '%') = 0 := by
  rw [List.count_eq_zero, List.mem_map]
  rintro ⟨c, hc, hpercent⟩
  exact isHexDigit.ne_percent (h c hc) (by simpa using hpercent)

/-- Side by side, two pieces have as many percent signs as on their own, and one byte
less for each digit that an escape takes from the second. -/
theorem exists_absorbed_append {xs : List Char} (hxs : .lone ∉ elements xs) (ys : List Char) :
    ∃ n, ((elements (xs ++ ys)).flatMap Element.bytes).length + n =
        ((elements xs ++ elements ys).flatMap Element.bytes).length ∧
      (elements (xs ++ ys)).count (.plain '%') = (elements xs ++ elements ys).count (.plain '%') ∧
      (n = 0 → Apart xs ys) := by
  rcases List.eq_nil_or_concat' (elements xs) with hnil | ⟨init, last, hlast⟩
  · cases xs with
    | nil => exact ⟨0, rfl, rfl, fun _ => by simp [Apart, elements]⟩
    | cons c xs => exact absurd hnil (elementsFrom_ne_nil _ _)
  · have hne : last ≠ .lone := by
      rintro rfl
      exact hxs (by simp [hlast])
    obtain ⟨ds, rest, longer, rfl, helements, hds, hlength, hpercent, hapart⟩ :=
      elementsFrom_absorbs hne ys
    have hplain := elements_append_of_plain (fun c hc => isHexDigit.ne_backslash (hds c hc)) rest
    refine ⟨ds.length, ?_, ?_, ?_⟩
    · have hbytes := length_flatMap_bytes_plain hds
      rw [elements_append hlast, helements, hplain, hlast]
      simp only [List.flatMap_append, List.flatMap_cons, List.flatMap_nil, List.length_append,
        List.length_nil, hlength, hbytes]
      omega
    · have hcount := count_percent_plain hds
      rw [elements_append hlast, helements, hplain, hlast]
      simp only [List.count_append, List.count_cons, List.count_nil, beq_iff_eq, hcount]
      rw [if_congr hpercent rfl rfl]
      omega
    · intro hn e he
      obtain rfl : last = e := by simpa [hlast] using he
      exact hapart (List.length_eq_zero_iff.mp hn)

/-! ## Doubled percent signs -/

/-- An element of a format: a percent sign stands twice. -/
def Element.double (e : Element) : List Element := if e = .plain '%' then [e, e] else [e]

/-- With the percent signs of `cs` doubled, those behind the first element are. -/
theorem elementsFrom_doubled {e : Element} {cs : List Char}
    (h : .simple '%' ∉ elementsFrom e cs) :
    ∃ first es, elementsFrom e cs = first :: es ∧
      elementsFrom e (PrintArg.formatChars.doubled cs) = first :: es.flatMap Element.double ∧
      (first = .plain '%' → e = .plain '%') := by
  induction cs generalizing e with
  | nil => exact ⟨e, [], rfl, rfl, id⟩
  | cons c cs ih =>
    cases hx : e.extend? c with
    | some longer =>
      rw [elementsFrom_of_some hx] at h ⊢
      -- a percent sign goes on with nothing but a backslash
      have hc : c ≠ '%' := by
        rintro rfl
        obtain rfl := Element.extend?_percent hx
        rw [elementsFrom_of_none fun _ _ => rfl] at h
        exact h (List.mem_cons_self ..)
      obtain ⟨first, es, hes, hdoubled, hfirst⟩ := ih h
      refine ⟨first, es, hes, ?_, fun hp => absurd (hfirst hp) (Element.ne_plain_of_extend? hx _)⟩
      rw [PrintArg.formatChars.doubled, if_neg hc, elementsFrom_of_some hx, hdoubled]
    | none =>
      have hnone (ds : List Char) : elementsFrom e (c :: ds) = e :: elements (c :: ds) := by
        refine elementsFrom_of_none ?_
        rintro d ⟨⟩
        exact hx
      rw [hnone, List.mem_cons, not_or] at h
      obtain ⟨first, es, hes, hdoubled, hfirst⟩ := ih h.2
      refine ⟨e, first :: es, by rw [hnone, elements, hes], ?_, id⟩
      rw [PrintArg.formatChars.doubled]
      -- `e` ends here; only a percent sign as such begins an element that is doubled
      split
      · rename_i hc
        subst hc
        obtain ⟨rfl, rfl⟩ : Element.plain '%' = first ∧ elements cs = es := by
          simpa [Element.start, elementsFrom_plain] using hes
        rw [hnone, elements_cons_of_ne (by decide), elements, hdoubled]
        rfl
      · rename_i hc
        have hne : first ≠ .plain '%' := by
          intro hp
          have hstart := hfirst hp
          unfold Element.start at hstart
          split at hstart
          · cases hstart
          · exact hc (by simpa using hstart)
        rw [hnone, elements, hdoubled, List.flatMap_cons, Element.double, if_neg hne]
        rfl

/-- The elements of a text with its percent signs doubled. -/
theorem elements_doubled {cs : List Char} (h : .simple '%' ∉ elements cs) :
    elements (PrintArg.formatChars.doubled cs) = (elements cs).flatMap Element.double := by
  have hafter : .simple '%' ∉ elementsFrom (.plain 'a') cs := by
    rw [elementsFrom_plain, List.mem_cons, not_or]
    exact ⟨by simp, h⟩
  obtain ⟨first, es, hes, hdoubled, -⟩ := elementsFrom_doubled hafter
  rw [elementsFrom_plain, List.cons.injEq] at hes hdoubled
  rw [hdoubled.2, hes.2]

/-! ## Bytes -/

/-- Each byte of a character that is not ASCII is above those of ASCII. -/
theorem toNat_of_mem_utf8EncodeChar {b : UInt8} {c : Char} (hc : ¬ c.val.toNat ≤ 127)
    (h : b ∈ String.utf8EncodeChar c) : 128 ≤ b.toNat := by
  have hofNat (n : Nat) (hn : 128 ≤ n ∧ n < 256) : 128 ≤ (UInt8.ofNat n).toNat := by
    rw [UInt8.toNat_ofNat']
    omega
  simp only [String.utf8EncodeChar, if_neg hc] at h
  split at h
  · simp only [List.mem_cons, List.not_mem_nil, or_false] at h
    rcases h with rfl | rfl <;> exact hofNat _ (by omega)
  · split at h
    · simp only [List.mem_cons, List.not_mem_nil, or_false] at h
      rcases h with rfl | rfl | rfl <;> exact hofNat _ (by omega)
    · simp only [List.mem_cons, List.not_mem_nil, or_false] at h
      rcases h with rfl | rfl | rfl | rfl <;> exact hofNat _ (by omega)

/-- An ASCII byte is in the code of its own character only. -/
theorem mem_utf8EncodeChar_iff {b : UInt8} (hb : b.toNat < 128) (c : Char) :
    b ∈ String.utf8EncodeChar c ↔ c = Char.ofNat b.toNat := by
  have hascii : ∀ n < 128, (Char.ofNat n).val.toNat = n := by decide
  constructor
  · intro h
    by_cases hc : c.val.toNat ≤ 127
    · simp only [String.utf8EncodeChar, if_pos hc, List.mem_singleton] at h
      rw [h, UInt8.toNat_ofNat', Nat.mod_eq_of_lt (by omega)]
      exact (Char.ofNat_toNat c).symm
    · have hhigh := toNat_of_mem_utf8EncodeChar hc h
      omega
  · rintro rfl
    simp only [String.utf8EncodeChar, hascii _ hb]
    rw [if_pos (by omega), UInt8.ofNat_toNat, List.mem_singleton]

theorem mem_numeral_iff {b : UInt8} {n : Nat} (hn : n < 256) :
    b ∈ [UInt8.ofNat n] ↔ some n = some b.toNat := by
  rw [List.mem_singleton, eq_comm, UInt8.ofNat_eq_iff_mod_eq_toNat, Nat.mod_eq_of_lt hn,
    Option.some.injEq]

/-- Where an ASCII byte that no letter names can come from. -/
theorem Element.mem_bytes_iff {e : Element} (he : e.defined = true) {b : UInt8}
    (hb : b.toNat < 128) (hs : ∀ p ∈ simpleEscapes, p.2 ≠ b) :
    b ∈ e.bytes ↔ e = .plain (Char.ofNat b.toNat) ∨ e.code? = some b.toNat := by
  cases e with
  | plain c => simpa [bytes, code?] using mem_utf8EncodeChar_iff hb c
  | lone => cases he
  | simple c =>
    obtain ⟨named, hnamed⟩ := Option.isSome_iff_exists.mp he
    obtain ⟨before, behind, hmem, -⟩ := List.lookup_eq_some_iff.mp hnamed
    have hne : named ≠ b := hs (c, named) (by simp [hmem])
    simpa [bytes, code?, hnamed] using hne.symm
  | octal ds =>
    have hlt : numeralValue 8 ds < 256 := by simpa [defined] using he
    simpa [bytes, code?] using mem_numeral_iff hlt
  | hex ds =>
    obtain ⟨-, hlt⟩ : ds ≠ [] ∧ numeralValue 16 ds < 256 := by simpa [defined] using he
    simpa [bytes, code?] using mem_numeral_iff hlt

end BareBones.C
