import BareBones.Scope
import Mathlib.Data.List.Nodup
import Mathlib.Data.String.Basic

/-!
The names declared so far, asked for and added to by any calls in any order. A scope has
one list of them. A table of names has them twice, in an array for their order and in a
set for quick answers, and the set takes a name before it is known to be new. Both answer
each call alike (`Scope.call_eq`), and array and set stay one: they hold what the
declarations so far have put there (`NameTable.Holds`), which one call preserves
(`NameTable.Holds.call`) and so any number of them (`NameTable.set_and_order_agree`).
-/

namespace BareBones

/-! ## Calls and answers -/

/-- A call on the names declared so far. -/
inductive NameCall where
  | declare (x : Located String)
  | lookup (x : Located String)
  | lookupTarget (x : Located String)
  | contains (x : String)

inductive NameAnswer where
  | checked (r : Except (Located NameError) Unit)
  | held (b : Bool)

namespace NameCall

/-- The name that a call is there to declare. -/
def declared? : NameCall → Option String
  | declare x => some x.val
  | _ => none

/-- The names in all declarations, those that are refused included. -/
def declaredNames (calls : List NameCall) : List String := calls.filterMap declared?

/-- Only a new name can be declared, and only a declared one used. -/
def Allowed (earlier : List String) : NameCall → Prop
  | declare x => x.val ∉ earlier
  | lookup x => x.val ∈ earlier
  | lookupTarget x => x.val ∈ earlier
  | contains x => x ∈ earlier

def success : NameCall → NameAnswer
  | contains _ => .held true
  | _ => .checked (.ok ())

/-- The answer to a call that is not allowed. -/
def refusal : NameCall → NameAnswer
  | declare x => .checked (.error ⟨.redefinition x.val, x.span⟩)
  | lookup x => .checked (.error ⟨.undefined x.val, x.span⟩)
  | lookupTarget x => .checked (.error ⟨.undefinedTarget x.val, x.span⟩)
  | contains _ => .held false

theorem success_ne_refusal (c : NameCall) : c.success ≠ c.refusal := by
  cases c <;> simp [success, refusal]

end NameCall

/-! ## Scopes -/

namespace Scope

def call (s : Scope) : NameCall → NameAnswer × Scope
  | .declare x =>
    match s.declare x with
    | .ok next => (.checked (.ok ()), next)
    | .error e => (.checked (.error e), s)
  | .lookup x => (.checked (s.lookup x), s)
  | .lookupTarget x => (.checked (s.lookupTarget x), s)
  | .contains x => (.held (s.contains x), s)

/-- The scope that a sequence of calls leaves. -/
def callAll (s : Scope) (calls : List NameCall) : Scope := calls.foldl (fun s c => (s.call c).2) s

end Scope

/-! ## Tables -/

/-- The declared names in order, and the set of them. -/
structure NameTable where
  order : Array String := #[]
  symbols : Std.ExtHashSet String := ∅

namespace NameTable

def empty : NameTable := {}

def names (t : NameTable) : List String := t.order.toList

def contains (t : NameTable) (x : String) : Bool := t.symbols.contains x

/-- The set takes the name in any case, the array only a new one. -/
def declare (t : NameTable) (x : Located String) : Except (Located NameError) Unit × NameTable :=
  match t.symbols.containsThenInsert x.val with
  | (true, symbols) => (.error ⟨.redefinition x.val, x.span⟩, ⟨t.order, symbols⟩)
  | (false, symbols) => (.ok (), ⟨t.order.push x.val, symbols⟩)

/-- Refuses a name that is not in the set. -/
def check (t : NameTable) (x : Located String) (fault : String → NameError) :
    Except (Located NameError) Unit :=
  if t.contains x.val then .ok () else .error ⟨fault x.val, x.span⟩

def lookup (t : NameTable) (x : Located String) : Except (Located NameError) Unit :=
  t.check x .undefined

def lookupTarget (t : NameTable) (x : Located String) : Except (Located NameError) Unit :=
  t.check x .undefinedTarget

def call (t : NameTable) : NameCall → NameAnswer × NameTable
  | .declare x => (.checked (t.declare x).1, (t.declare x).2)
  | .lookup x => (.checked (t.lookup x), t)
  | .lookupTarget x => (.checked (t.lookupTarget x), t)
  | .contains x => (.held (t.contains x), t)

/-- The table that a sequence of calls leaves. -/
def callAll (t : NameTable) (calls : List NameCall) : NameTable :=
  calls.foldl (fun t c => (t.call c).2) t

end NameTable

/-! ## One call -/

theorem eraseDups_concat_of_mem {α : Type} [BEq α] [LawfulBEq α] {xs : List α} {x : α}
    (h : x ∈ xs) :
    (xs ++ [x]).eraseDups = xs.eraseDups := by
  rw [List.eraseDups_append, List.cons_removeAll]
  simp [h]

theorem eraseDups_concat_of_notMem {α : Type} [BEq α] [LawfulBEq α] {xs : List α} {x : α}
    (h : x ∉ xs) :
    (xs ++ [x]).eraseDups = xs.eraseDups ++ [x] := by
  rw [List.eraseDups_append, List.cons_removeAll]
  simp [h, List.eraseDups_cons]

namespace NameTable

variable {t : NameTable} {x : Located String} {earlier : List String}

theorem contains_iff (t : NameTable) (x : String) : t.contains x = true ↔ x ∈ t.symbols :=
  Std.ExtHashSet.mem_iff_contains.symm

/-- The set has the name already, so taking it once more changes nothing. -/
theorem declare_of_mem (h : x.val ∈ t.symbols) :
    t.declare x = (.error ⟨.redefinition x.val, x.span⟩, t) := by
  have hsame : t.symbols.insert x.val = t.symbols := by
    refine Std.ExtHashSet.ext_mem fun y => ?_
    rw [Std.ExtHashSet.mem_insert, beq_iff_eq]
    constructor
    · rintro (rfl | hy)
      · exact h
      · exact hy
    · exact Or.inr
  have hput : t.symbols.containsThenInsert x.val = (true, t.symbols) :=
    Prod.ext (Std.ExtHashSet.containsThenInsert_fst.trans (Std.ExtHashSet.mem_iff_contains.mp h))
      (Std.ExtHashSet.containsThenInsert_snd.trans hsame)
  rw [declare, hput]

theorem declare_of_notMem (h : x.val ∉ t.symbols) :
    t.declare x = (.ok (), ⟨t.order.push x.val, t.symbols.insert x.val⟩) := by
  have hput : t.symbols.containsThenInsert x.val = (false, t.symbols.insert x.val) := by
    refine Prod.ext ?_ Std.ExtHashSet.containsThenInsert_snd
    rw [Std.ExtHashSet.containsThenInsert_fst, Bool.eq_false_iff]
    exact fun hx => h (Std.ExtHashSet.mem_iff_contains.mpr hx)
  rw [declare, hput]

theorem check_of_mem (h : x.val ∈ t.symbols) (fault : String → NameError) :
    t.check x fault = .ok () := by
  rw [check, if_pos ((t.contains_iff _).mpr h)]

theorem check_of_notMem (h : x.val ∉ t.symbols) (fault : String → NameError) :
    t.check x fault = .error ⟨fault x.val, x.span⟩ := by
  rw [check, if_neg (fun hx => h ((t.contains_iff _).mp hx))]

/-- Array and set both hold what the declarations of `earlier` have put there. -/
structure Holds (t : NameTable) (earlier : List String) : Prop where
  names : t.names = earlier.eraseDups
  nodup : t.names.Nodup
  symbols : ∀ x, x ∈ t.symbols ↔ x ∈ earlier

theorem holds_empty : Holds empty [] where
  names := rfl
  nodup := List.nodup_nil
  symbols := by simp [empty]

theorem Holds.call_allowed (h : t.Holds earlier) {c : NameCall} (hc : c.Allowed earlier) :
    (t.call c).1 = c.success := by
  cases c with
  | declare x =>
    have hx : x.val ∉ t.symbols := fun hmem => hc ((h.symbols _).mp hmem)
    rw [call, declare_of_notMem hx]
    rfl
  | lookup x =>
    rw [call, lookup, check_of_mem ((h.symbols _).mpr hc)]
    rfl
  | lookupTarget x =>
    rw [call, lookupTarget, check_of_mem ((h.symbols _).mpr hc)]
    rfl
  | contains x =>
    rw [call, (t.contains_iff x).mpr ((h.symbols x).mpr hc)]
    rfl

theorem Holds.call_refused (h : t.Holds earlier) {c : NameCall} (hc : ¬ c.Allowed earlier) :
    t.call c = (c.refusal, t) := by
  cases c with
  | declare x =>
    have hx : x.val ∈ t.symbols := (h.symbols _).mpr (not_not.mp hc)
    rw [call, declare_of_mem hx]
    rfl
  | lookup x =>
    have hx : x.val ∉ t.symbols := fun hmem => hc ((h.symbols _).mp hmem)
    rw [call, lookup, check_of_notMem hx]
    rfl
  | lookupTarget x =>
    have hx : x.val ∉ t.symbols := fun hmem => hc ((h.symbols _).mp hmem)
    rw [call, lookupTarget, check_of_notMem hx]
    rfl
  | contains x =>
    have hx : t.contains x = false := by
      rw [Bool.eq_false_iff, ne_eq, t.contains_iff, h.symbols]
      exact hc
    rw [call, hx]
    rfl

/-- Only a declaration changes the table. -/
theorem call_snd_of_declared?_eq_none {c : NameCall} (h : c.declared? = none) :
    (t.call c).2 = t := by
  cases c with
  | declare x => cases h
  | _ => rfl

/-- A name that was declared before stays where its first declaration has put it. -/
theorem Holds.again (h : t.Holds earlier) {x : String} (hx : x ∈ earlier) :
    t.Holds (earlier ++ [x]) where
  names := h.names.trans (eraseDups_concat_of_mem hx).symm
  nodup := h.nodup
  symbols := by
    intro y
    rw [h.symbols, List.mem_append, List.mem_singleton]
    constructor
    · exact Or.inl
    · rintro (hy | rfl)
      · exact hy
      · exact hx

theorem Holds.push (h : t.Holds earlier) {x : String} (hx : x ∉ earlier) :
    Holds ⟨t.order.push x, t.symbols.insert x⟩ (earlier ++ [x]) := by
  have hpush : NameTable.names ⟨t.order.push x, t.symbols.insert x⟩ = t.names ++ [x] :=
    Array.toList_push
  have hnew : x ∉ t.names := by rwa [h.names, List.mem_eraseDups]
  constructor
  case names => rw [hpush, h.names, eraseDups_concat_of_notMem hx]
  case nodup =>
    rw [hpush, ← List.concat_eq_append]
    exact h.nodup.concat hnew
  case symbols =>
    intro y
    rw [Std.ExtHashSet.mem_insert, beq_iff_eq, h.symbols, List.mem_append, List.mem_singleton,
      or_comm, eq_comm]

theorem Holds.call (h : t.Holds earlier) (c : NameCall) :
    (t.call c).2.Holds (earlier ++ NameCall.declaredNames [c]) := by
  cases c with
  | declare x =>
    by_cases hx : x.val ∈ earlier
    · have hmem : x.val ∈ t.symbols := (h.symbols _).mpr hx
      rw [NameTable.call, declare_of_mem hmem]
      exact h.again hx
    · have hmem : x.val ∉ t.symbols := fun hmem => hx ((h.symbols _).mp hmem)
      rw [NameTable.call, declare_of_notMem hmem]
      exact h.push hx
  | lookup x => exact (List.append_nil earlier).symm ▸ h
  | lookupTarget x => exact (List.append_nil earlier).symm ▸ h
  | contains x => exact (List.append_nil earlier).symm ▸ h

/-! ## Any calls -/

theorem Holds.callAll (h : t.Holds earlier) (calls : List NameCall) :
    (t.callAll calls).Holds (earlier ++ NameCall.declaredNames calls) := by
  induction calls generalizing t earlier with
  | nil => exact (List.append_nil earlier).symm ▸ h
  | cons c calls ih =>
    have hsplit : NameCall.declaredNames (c :: calls) =
        NameCall.declaredNames [c] ++ NameCall.declaredNames calls :=
      List.filterMap_append (l := [c])
    rw [hsplit, ← List.append_assoc]
    exact ih (h.call c)

end NameTable

namespace Scope

variable {s : Scope} {t : NameTable} {earlier : List String}

/-- A scope with the names of a table answers as the table does, and still has its names. -/
theorem call_eq (ht : t.Holds earlier) (h : s.names = t.names) (c : NameCall) :
    (s.call c).1 = (t.call c).1 ∧ (s.call c).2.names = (t.call c).2.names := by
  have hmem : ∀ x, s.contains x = true ↔ x ∈ t.symbols := by
    intro x
    rw [s.contains_iff, h, ht.names, List.mem_eraseDups, ht.symbols]
  have hcontains : ∀ x, s.contains x = t.contains x := by
    intro x
    rw [Bool.eq_iff_iff, hmem, t.contains_iff]
  cases c with
  | declare x =>
    by_cases hx : x.val ∈ t.symbols
    · have hs : s.declare x = .error ⟨.redefinition x.val, x.span⟩ := by
        rw [declare, if_pos ((hmem _).mpr hx)]
      simp only [call, hs, NameTable.call, NameTable.declare_of_mem hx, h, and_self]
    · have hs : s.declare x = .ok ⟨x.val :: s.declared⟩ := by
        rw [declare, if_neg (fun hc => hx ((hmem _).mp hc))]
      have hnames : names ⟨x.val :: s.declared⟩ = s.names ++ [x.val] := List.reverse_cons
      simp only [call, hs, NameTable.call, NameTable.declare_of_notMem hx, true_and]
      rw [hnames, h]
      exact Array.toList_push.symm
  | lookup x =>
    simp only [call, NameTable.call, lookup, NameTable.lookup, NameTable.check, hcontains, h,
      and_self]
  | lookupTarget x =>
    simp only [call, NameTable.call, lookupTarget, NameTable.lookupTarget, NameTable.check,
      hcontains, h, and_self]
  | contains x => simp only [call, NameTable.call, hcontains, h, and_self]

theorem callAll_names (ht : t.Holds earlier) (h : s.names = t.names) (calls : List NameCall) :
    (s.callAll calls).names = (t.callAll calls).names := by
  induction calls generalizing s t earlier with
  | nil => exact h
  | cons c calls ih => exact ih (ht.call c) (call_eq ht h c).2

end Scope

/-- Whatever calls came before, the set has the names of the array, which stand there once each
in the order of their first declarations. The next call does what it has to exactly if it
declares a new name or uses a declared one. Any other call is refused with the fault of its
kind at the place of its name, and nothing but a declaration that is not refused changes the
table. A scope answers the same and has the same names. -/
theorem NameTable.set_and_order_agree (calls : List NameCall) :
    let t := NameTable.empty.callAll calls
    let s := Scope.empty.callAll calls
    t.names.Nodup ∧ (∀ x, x ∈ t.symbols ↔ x ∈ t.names) ∧
    t.names = (NameCall.declaredNames calls).eraseDups ∧
    (∀ c : NameCall,
      ((t.call c).1 = c.success ↔ c.Allowed (NameCall.declaredNames calls)) ∧
      ((t.call c).1 = c.success ∨ t.call c = (c.refusal, t)) ∧
      (c.declared? = none → (t.call c).2 = t)) ∧
    s.names = t.names ∧ ∀ c : NameCall, (s.call c).1 = (t.call c).1 := by
  intro t s
  have ht : t.Holds (NameCall.declaredNames calls) := holds_empty.callAll calls
  have hnames : s.names = t.names := Scope.callAll_names holds_empty rfl calls
  refine ⟨ht.nodup, ?_, ht.names, ?_, hnames, fun c => (Scope.call_eq ht hnames c).1⟩
  · intro x
    rw [ht.symbols, ht.names, List.mem_eraseDups]
  · intro c
    by_cases hc : c.Allowed (NameCall.declaredNames calls)
    · have hsuccess := ht.call_allowed hc
      exact ⟨iff_of_true hsuccess hc, Or.inl hsuccess, call_snd_of_declared?_eq_none⟩
    · have hrefused := ht.call_refused hc
      refine ⟨iff_of_false ?_ hc, Or.inr hrefused, call_snd_of_declared?_eq_none⟩
      rw [hrefused]
      exact c.success_ne_refusal.symm

end BareBones
