import BareBones.CommandLine.Arguments

/-!
What the words of a command line ask for. `Spells` says which words give which arguments,
in whatever order they stand, and `Requests` which arguments make up a job. A job is found
exactly if the words ask for it in this way (`Job.ofArguments_eq_ok_iff`). Help and version
are answered only if a word asks for them (`Job.asksForInfo_of_ofArguments`).
-/

namespace BareBones.CommandLine

inductive Argument where
  | input (path : String)
  | output (path : String)
  | switch (s : Switch)
deriving DecidableEq

/-! ## How arguments are spelled -/

/-- A word that can be a value: it is not empty, and a dash is all there is to it if it
begins with one. -/
def IsValue (w : String) : Prop := w ≠ "" ∧ (w.toList.head? = some '-' → w = "-")

/-- The word `w` gives the output `p` that it ends with. -/
inductive Attaches : String → String → Prop
  | short {p : String} : p.toList.head? ≠ some '=' → Attaches ("-o" ++ p) p
  | shortEquals {p : String} : Attaches ("-o=" ++ p) p
  | long {p : String} : Attaches ("--output=" ++ p) p

/-- The words give these arguments. -/
inductive Spells : List String → List Argument → Prop
  | nil : Spells [] []
  | input {p : String} {ws : List String} {as : List Argument} : IsValue p → Spells ws as →
      Spells (p :: ws) (.input p :: as)
  | switch (s : Switch) {ws : List String} {as : List Argument} : Spells ws as →
      Spells (("--" ++ s.name) :: ws) (.switch s :: as)
  | separate {o p : String} {ws : List String} {as : List Argument} :
      o = "-o" ∨ o = "--output" → IsValue p → Spells ws as →
      Spells (o :: p :: ws) (.output p :: as)
  | attached {w p : String} {ws : List String} {as : List Argument} :
      Attaches w p → p ≠ "" → Spells ws as → Spells (w :: ws) (.output p :: as)
  | literal {ws : List String} : (∀ w ∈ ws, w ≠ "") → Spells ("--" :: ws) (ws.map .input)

namespace Argument

def inputs (as : List Argument) : List String :=
  as.filterMap fun | input p => some p | _ => none

def outputs (as : List Argument) : List String :=
  as.filterMap fun | output p => some p | _ => none

@[simp] theorem inputs_input (p : String) (as : List Argument) :
    inputs (input p :: as) = p :: inputs as := rfl

@[simp] theorem inputs_map_input (ws : List String) : inputs (ws.map input) = ws := by
  induction ws with
  | nil => rfl
  | cons w ws ih => rw [List.map_cons, inputs_input, ih]

/-- The arguments ask for the job `j`. -/
structure Requests (as : List Argument) (j : Job) : Prop where
  input : inputs as = [j.input]
  output : outputs as = [j.output] ∨ outputs as = [] ∧ j.output = defaultOutput
  formats : ¬ (.switch .pretty ∈ as ∧ .switch .compact ∈ as)
  format : j.format = if .switch .compact ∈ as then .compact else .pretty
  watch : j.watch = ⟨.switch .traceTokens ∈ as, .switch .traceProductions ∈ as⟩

end Argument

/-! ## One word -/

theorem Switch.ofName?_eq_some_iff (n : String) (s : Switch) :
    ofName? n = some s ↔ n = s.name := by
  constructor
  · intro h
    have hs := List.find?_some h
    simpa [eq_comm] using hs
  · rintro rfl
    cases s <;> decide

namespace Given

/-- What a word does while options are still read. -/
inductive Takes (g : Given) : String → Given → Prop
  | literal : Takes g "--" { g.settle with literal := true }
  | switch (s : Switch) :
      Takes g ("--" ++ s.name) { g.settle with switches := s :: g.settle.switches }
  | await {o : String} : o = "-o" ∨ o = "--output" → Takes g o { g.settle with awaiting := true }
  | attached {w p : String} : Attaches w p → p ≠ "" →
      Takes g w { g.settle with awaiting := false, outputs := some p :: g.settle.outputs }
  | output {p : String} : IsValue p → g.awaiting = true →
      Takes g p { g with awaiting := false, outputs := some p :: g.outputs }
  | input {p : String} : IsValue p → g.awaiting = false → g.input = none →
      Takes g p { g with input := some p }

theorem output_eq_ok {g g' : Given} {p : String} (h : g.output p = .ok g') :
    p ≠ "" ∧ g' = { g with awaiting := false, outputs := some p :: g.outputs } := by
  unfold output at h
  split at h
  · cases h
  · rename_i hp
    cases h
    exact ⟨hp, rfl⟩

theorem positional_eq_ok {g g' : Given} {p : String} (h : g.positional p = .ok g') :
    p ≠ "" ∧ g.input = none ∧ g' = { g with input := some p } := by
  unfold positional at h
  split at h
  · cases h
  · split at h
    · cases h
    · rename_i hi hp
      cases h
      exact ⟨hp, by simpa using hi, rfl⟩

/-- The name of a long option and the value behind its `=`. -/
theorem attachedValue_cases (cs : List Char) :
    attachedValue (cs.dropWhile (· ≠ '=')) = none ∧ cs.takeWhile (· ≠ '=') = cs ∨
      ∃ value, attachedValue (cs.dropWhile (· ≠ '=')) = some (String.ofList value) ∧
        cs = cs.takeWhile (· ≠ '=') ++ '=' :: value := by
  induction cs with
  | nil => exact Or.inl ⟨rfl, rfl⟩
  | cons c cs ih =>
    by_cases hc : c = '='
    · subst hc
      exact Or.inr ⟨cs, rfl, rfl⟩
    · rw [List.dropWhile_cons_of_pos (by simpa using hc),
        List.takeWhile_cons_of_pos (by simpa using hc)]
      rcases ih with ⟨hnone, htake⟩ | ⟨value, hsome, htake⟩
      · exact Or.inl ⟨hnone, by rw [htake]⟩
      · exact Or.inr ⟨value, hsome, by rw [List.cons_append, ← htake]⟩

theorem long_eq_ok {g g' : Given} {name : String} {attached : Option String}
    (h : g.long name attached = .ok g') :
    name = "output" ∧ (∃ value, attached = some value ∧ g.output value = .ok g') ∨
      name = "output" ∧ attached = none ∧ g' = { g with awaiting := true } ∨
      ∃ s : Switch, name = s.name ∧ attached = none ∧
        g' = { g with switches := s :: g.switches } := by
  unfold long at h
  by_cases hname : name = "output"
  · rw [if_pos hname] at h
    cases attached with
    | some value => exact Or.inl ⟨hname, value, rfl, h⟩
    | none =>
      cases h
      exact Or.inr (Or.inl ⟨hname, rfl, rfl⟩)
  · rw [if_neg hname] at h
    cases attached with
    | some value =>
      rw [if_pos (by simp)] at h
      split at h <;> cases h
    | none =>
      rw [if_neg (by simp)] at h
      split at h
      · cases h
      · split at h
        · cases h
        · split at h
          · rename_i s hs
            cases h
            exact Or.inr (Or.inr ⟨s, (Switch.ofName?_eq_some_iff name s).mp hs, rfl, rfl⟩)
          · cases h

theorem short_eq_ok {g g' : Given} {c : Char} {cs : List Char} (h : g.short c cs = .ok g') :
    c = 'o' ∧ (cs = [] ∧ g' = { g with awaiting := true } ∨
      (∃ value, cs = '=' :: value ∧ g.output (String.ofList value) = .ok g') ∨
      cs.head? ≠ some '=' ∧ g.output (String.ofList cs) = .ok g') := by
  unfold short at h
  split at h
  · cases h
  · cases h
  · cases h
    exact ⟨rfl, Or.inl ⟨rfl, rfl⟩⟩
  · exact ⟨rfl, Or.inr (Or.inl ⟨_, rfl, h⟩)⟩
  · rename_i hnil hequals
    refine ⟨rfl, Or.inr (Or.inr ⟨?_, h⟩)⟩
    intro hhead
    obtain ⟨value, hvalue⟩ := List.head?_eq_some_iff.mp hhead
    exact hequals value hvalue
  · cases h

theorem ofList_dashes {cs : List Char} {n : String} (h : String.ofList cs = n) :
    String.ofList ('-' :: '-' :: cs) = "--" ++ n := by
  rw [← h, ← String.toList_inj]
  simp

theorem takes_of_take {g g' : Given} {w : String} (hl : g.literal = false)
    (h : g.take w = .ok g') : g.Takes w g' := by
  have hword {cs : List Char} (hw : w.toList = cs) : w = String.ofList cs := by
    rw [← hw, String.ofList_toList]
  unfold take at h
  rw [hl, if_neg (by simp)] at h
  split at h
  · rename_i hw
    cases h
    rw [hword hw]
    exact .literal
  · rename_i cs hne hw
    rw [hword hw]
    rcases attachedValue_cases cs with ⟨hnone, htake⟩ | ⟨value, hsome, hcs⟩
    · rw [hnone, htake] at h
      rcases long_eq_ok h with ⟨-, value, hvalue, -⟩ | ⟨hname, -, rfl⟩ | ⟨s, hname, -, rfl⟩
      · cases hvalue
      · exact .await (Or.inr (ofList_dashes hname))
      · rw [ofList_dashes hname]
        exact .switch s
    · rw [hsome] at h
      rcases long_eq_ok h with ⟨hname, p, hp, hout⟩ | ⟨-, hnone, -⟩ | ⟨s, -, hnone, -⟩
      · cases hp
        obtain ⟨hempty, rfl⟩ := output_eq_ok hout
        have hspelled : String.ofList ('-' :: '-' :: cs) = "--output=" ++ String.ofList value := by
          have hoption : cs.takeWhile (· ≠ '=') = "output".toList := by
            rw [← hname, String.toList_ofList]
          rw [hcs, hoption, ← String.toList_inj]
          simp
        rw [hspelled]
        exact .attached .long hempty
      · cases hnone
      · cases hnone
  · rename_i c cs _ _ hw
    rw [hword hw]
    obtain ⟨rfl, ⟨rfl, rfl⟩ | ⟨value, rfl, hout⟩ | ⟨hequals, hout⟩⟩ := short_eq_ok h
    · exact .await (Or.inl rfl)
    · obtain ⟨hempty, rfl⟩ := output_eq_ok hout
      rw [show String.ofList ('-' :: 'o' :: '=' :: value) = "-o=" ++ String.ofList value by
        rw [← String.toList_inj]; simp]
      exact .attached .shortEquals hempty
    · obtain ⟨hempty, rfl⟩ := output_eq_ok hout
      rw [show String.ofList ('-' :: 'o' :: cs) = "-o" ++ String.ofList cs by
        rw [← String.toList_inj]; simp]
      exact .attached (.short (by rwa [String.toList_ofList])) hempty
  · rename_i hliteral hlong hshort
    have hvalue (hempty : w ≠ "") : IsValue w := by
      refine ⟨hempty, fun hhead => ?_⟩
      obtain ⟨cs, hcs⟩ := List.head?_eq_some_iff.mp hhead
      cases cs with
      | nil => exact hword hcs
      | cons c cs => exact absurd hcs (hshort c cs)
    split at h
    · rename_i hawaiting
      obtain ⟨hempty, rfl⟩ := output_eq_ok h
      exact .output (hvalue hempty) hawaiting
    · rename_i hawaiting
      obtain ⟨hempty, hinput, rfl⟩ := positional_eq_ok h
      exact .input (hvalue hempty) (by simpa using hawaiting) hinput

theorem short_attached {g : Given} {p : String} (hp : p ≠ "")
    (hequals : p.toList.head? ≠ some '=') : g.short 'o' p.toList = g.output p := by
  have hnil : p.toList ≠ [] := by simpa using hp
  unfold short
  split
  · rename_i hletter
    cases hletter
  · rename_i hletter
    cases hletter
  · exact absurd ‹_› hnil
  · rename_i hvalue
    exact absurd (by rw [hvalue]; rfl) hequals
  · rw [String.ofList_toList]
  · rename_i hother _ _
    exact (hother rfl).elim

theorem take_value {g : Given} {w : String} (hl : g.literal = false) (hw : IsValue w) :
    g.take w = if g.awaiting then g.output w else g.positional w := by
  have hshort (c : Char) (cs : List Char) : w.toList ≠ '-' :: c :: cs := by
    intro h
    have hdash := hw.2 (by rw [h]; rfl)
    rw [hdash] at h
    cases h
  unfold take
  rw [hl, if_neg (by simp)]
  split
  · exact absurd ‹_› (hshort _ _)
  · exact absurd ‹_› (hshort _ _)
  · exact absurd ‹_› (hshort _ _)
  · rfl

theorem take_of_takes {g g' : Given} {w : String} (hl : g.literal = false) (h : g.Takes w g') :
    g.take w = .ok g' := by
  cases h with
  | literal => simp [take, hl]
  | switch s => cases s <;> simp [take, hl, Switch.name, long, attachedValue, Switch.ofName?]
  | await ho =>
    rcases ho with rfl | rfl
    · simp [take, hl, short]
    · simp [take, hl, long, attachedValue]
  | attached hw hp =>
    cases hw with
    | short hequals => simp [take, hl, short_attached hp hequals, output, hp]
    | shortEquals => simp [take, hl, short, output, hp]
    | long => simp [take, hl, long, attachedValue, output, hp]
  | output hp ha => rw [take_value hl hp, if_pos ha, output, if_neg hp.1]
  | input hp ha hi =>
    rw [take_value hl hp, if_neg (by simp [ha]), positional, hi, if_neg hp.1]
    rfl

/-! ## All words -/

/-- What an argument adds to those before it. -/
def add (g : Given) : Argument → Given
  | .input p => { g with input := some p }
  | .output p => { g with outputs := some p :: g.outputs }
  | .switch s => { g with switches := s :: g.switches }

theorem foldl_add_literal (g : Given) (l : Bool) (as : List Argument) :
    as.foldl add { g with literal := l } = { as.foldl add g with literal := l } := by
  induction as generalizing g with
  | nil => rfl
  | cons a as ih =>
    rw [List.foldl_cons, List.foldl_cons, ← ih]
    cases a <;> rfl

theorem foldl_add_awaiting (g : Given) (as : List Argument) :
    (as.foldl add g).awaiting = g.awaiting := by
  induction as generalizing g with
  | nil => rfl
  | cons a as ih =>
    rw [List.foldl_cons, ih]
    cases a <;> rfl

/-- There is no input yet if there may be one more. -/
theorem input_eq_none {g : Given} {p : String} {ps : List String}
    (h : (g.input.toList ++ p :: ps).length ≤ 1) : g.input = none := by
  cases hg : g.input with
  | none => rfl
  | some q => simp [hg] at h

theorem settle_eq_self {g : Given} (h : g.awaiting = false) : g.settle = g := by
  rw [settle, if_neg (by simp [h])]

theorem take_literal {g : Given} (hl : g.literal = true) (w : String) :
    g.take w = g.settle.positional w := by
  rw [take, if_pos hl]

theorem foldlM_cons_eq_ok {g g' : Given} {w : String} {ws : List String}
    (h : (w :: ws).foldlM take g = .ok g') :
    ∃ next, g.take w = .ok next ∧ ws.foldlM take next = .ok g' := by
  rw [List.foldlM_cons] at h
  cases hw : g.take w with
  | error e =>
    rw [hw] at h
    cases h
  | ok next =>
    rw [hw] at h
    exact ⟨next, rfl, h⟩

/-- An output stays what it is, be it a missing one. -/
theorem outputs_subset {g g' : Given} {ws : List String} (h : ws.foldlM take g = .ok g') :
    ∀ o ∈ g.outputs, o ∈ g'.settle.outputs := by
  have hsettle (g : Given) : ∀ o ∈ g.outputs, o ∈ g.settle.outputs := by
    intro o ho
    unfold settle
    split
    · exact List.mem_cons_of_mem _ ho
    · exact ho
  induction ws generalizing g with
  | nil =>
    cases h
    exact hsettle g'
  | cons w ws ih =>
    obtain ⟨next, hnext, hrest⟩ := foldlM_cons_eq_ok h
    intro o ho
    refine ih hrest o ?_
    cases hl : g.literal with
    | true =>
      rw [take_literal hl] at hnext
      obtain ⟨-, -, rfl⟩ := positional_eq_ok hnext
      exact hsettle g o ho
    | false =>
      cases takes_of_take hl hnext with
      | literal | switch | await => exact hsettle g o ho
      | attached => exact List.mem_cons_of_mem _ (hsettle g o ho)
      | output => exact List.mem_cons_of_mem _ ho
      | input => exact ho

/-- An option that waits for its value takes the next word for it, or goes without. -/
theorem value_or_missing {g g' : Given} {w : String} (hl : g.literal = false)
    (ha : g.awaiting = true) (h : g.take w = .ok g') :
    IsValue w ∧ g' = { g with awaiting := false, outputs := some w :: g.outputs } ∨
      none ∈ g'.outputs := by
  have hmissing : none ∈ g.settle.outputs := by simp [settle, ha]
  cases takes_of_take hl h with
  | literal | switch | await => exact Or.inr hmissing
  | attached => exact Or.inr (List.mem_cons_of_mem _ hmissing)
  | output hw => exact Or.inl ⟨hw, rfl⟩
  | input _ hawaiting =>
    rw [ha] at hawaiting
    cases hawaiting

/-- Behind `--` each word is an input. -/
theorem foldlM_literal {g g' : Given} {ws : List String} (hl : g.literal = true)
    (ha : g.awaiting = false) (h : ws.foldlM take g = .ok g') :
    (∀ w ∈ ws, w ≠ "") ∧ (g.input.toList ++ ws).length ≤ 1 ∧
      g' = (ws.map Argument.input).foldl add g := by
  induction ws generalizing g with
  | nil =>
    cases h
    exact ⟨by simp, by cases g'.input <;> simp, rfl⟩
  | cons w ws ih =>
    obtain ⟨next, hnext, hrest⟩ := foldlM_cons_eq_ok h
    rw [take_literal hl, settle_eq_self ha] at hnext
    obtain ⟨hempty, hinput, rfl⟩ := positional_eq_ok hnext
    obtain ⟨hwords, hlength, rfl⟩ := ih (g := { g with input := some w }) hl ha hrest
    refine ⟨by simpa [hempty] using hwords, ?_, rfl⟩
    simpa [hinput] using hlength

theorem foldlM_literal_of_le {g : Given} {ws : List String} (hl : g.literal = true)
    (ha : g.awaiting = false) (hwords : ∀ w ∈ ws, w ≠ "")
    (hi : (g.input.toList ++ ws).length ≤ 1) :
    ws.foldlM take g = .ok ((ws.map Argument.input).foldl add g) := by
  match ws with
  | [] => rfl
  | [w] =>
    have hinput := input_eq_none hi
    have htake : g.take w = .ok (g.add (.input w)) := by
      rw [take_literal hl, settle_eq_self ha, positional, hinput, if_neg (by simp),
        if_neg (hwords w (by simp))]
      rfl
    rw [List.foldlM_cons, htake]
    rfl
  | w :: v :: ws =>
    simp only [List.length_append, List.length_cons] at hi
    omega

/-- Words that are read without complaint spell arguments. -/
theorem spells_of_foldlM {g g' : Given} {ws : List String} (hl : g.literal = false)
    (ha : g.awaiting = false) (h : ws.foldlM take g = .ok g') (hnone : none ∉ g'.settle.outputs) :
    ∃ as, Spells ws as ∧ (g.input.toList ++ Argument.inputs as).length ≤ 1 ∧
      g'.settle = { as.foldl add g with literal := g'.literal } := by
  have hself := settle_eq_self ha
  cases ws with
  | nil =>
    cases h
    exact ⟨[], .nil, by cases g.input <;> simp [Argument.inputs], hself⟩
  | cons w ws =>
    obtain ⟨next, hnext, hrest⟩ := foldlM_cons_eq_ok h
    cases takes_of_take hl hnext with
    | literal =>
      rw [hself] at hrest
      obtain ⟨hwords, hlength, rfl⟩ := foldlM_literal (g := { g with literal := true }) rfl ha hrest
      refine ⟨ws.map .input, .literal hwords, by simpa using hlength, ?_⟩
      rw [settle_eq_self (by rw [foldl_add_awaiting]; exact ha), foldl_add_literal]
    | switch s =>
      rw [hself] at hrest
      obtain ⟨as, hspells, hlength, heq⟩ :=
        spells_of_foldlM (g := g.add (.switch s)) hl ha hrest hnone
      exact ⟨.switch s :: as, .switch s hspells, hlength, heq⟩
    | attached hw hp =>
      rw [hself, ← ha] at hrest
      obtain ⟨as, hspells, hlength, heq⟩ :=
        spells_of_foldlM (g := g.add (.output _)) hl ha hrest hnone
      exact ⟨.output _ :: as, .attached hw hp hspells, hlength, heq⟩
    | output _ hawaiting =>
      rw [ha] at hawaiting
      cases hawaiting
    | input hp _ hinput =>
      obtain ⟨as, hspells, hlength, heq⟩ :=
        spells_of_foldlM (g := g.add (.input _)) hl ha hrest hnone
      refine ⟨.input _ :: as, .input hp hspells, ?_, heq⟩
      simpa [hinput, add] using hlength
    | await ho =>
      rw [hself] at hrest
      -- without a value for it an output would be missing to the end
      cases ws with
      | nil =>
        cases hrest
        exact absurd (by simp [settle]) hnone
      | cons v ws =>
        obtain ⟨last, hlast, hrest⟩ := foldlM_cons_eq_ok hrest
        rcases value_or_missing (g := { g with awaiting := true }) hl rfl hlast with
          ⟨hv, rfl⟩ | hmissing
        · obtain ⟨as, hspells, hlength, heq⟩ :=
            spells_of_foldlM (g := g.add (.output v)) hl ha (by rw [add, ha]; exact hrest) hnone
          exact ⟨.output v :: as, .separate ho hv hspells, hlength, heq⟩
        · exact absurd (outputs_subset hrest none hmissing) hnone
termination_by ws.length

/-- The other way around, words that spell arguments are read without complaint, if there is
at most one input among them. -/
theorem foldlM_of_spells {ws : List String} {as : List Argument} (h : Spells ws as) {g : Given}
    (hl : g.literal = false) (ha : g.awaiting = false)
    (hi : (g.input.toList ++ Argument.inputs as).length ≤ 1) :
    ∃ l, ws.foldlM take g = .ok { as.foldl add g with literal := l } := by
  have hstep {w : String} {ws : List String} {g next : Given} (hl : g.literal = false)
      (hw : g.Takes w next) : (w :: ws).foldlM take g = ws.foldlM take next := by
    rw [List.foldlM_cons, take_of_takes hl hw]
    rfl
  induction h generalizing g with
  | nil => exact ⟨g.literal, rfl⟩
  | @input p ws as hp _ ih =>
    have hinput := input_eq_none hi
    rw [hstep hl (.input hp ha hinput)]
    exact ih (g := g.add (.input p)) hl ha (by simpa [hinput, add] using hi)
  | switch s _ ih =>
    rw [hstep hl (.switch s), settle_eq_self ha]
    exact ih (g := g.add (.switch s)) hl ha hi
  | @separate o p ws as ho hp _ ih =>
    rw [hstep hl (.await ho), settle_eq_self ha,
      hstep (g := { g with awaiting := true }) hl (.output hp rfl), ← ha]
    exact ih (g := g.add (.output p)) hl ha hi
  | @attached w p ws as hw hp _ ih =>
    rw [hstep hl (.attached hw hp), settle_eq_self ha, ← ha]
    exact ih (g := g.add (.output p)) hl ha hi
  | @literal ws hwords =>
    rw [hstep hl .literal, settle_eq_self ha]
    refine ⟨true, ?_⟩
    rw [← foldl_add_literal]
    exact foldlM_literal_of_le (g := { g with literal := true }) rfl ha hwords (by simpa using hi)

/-! ## The words as a whole -/

theorem foldl_add_input (g : Given) (as : List Argument) :
    (as.foldl add g).input = (Argument.inputs as).getLast?.or g.input := by
  induction as generalizing g with
  | nil => rfl
  | cons a as ih =>
    rw [List.foldl_cons, ih]
    cases a with
    | input p =>
      rw [Argument.inputs_input, List.getLast?_cons]
      cases (Argument.inputs as).getLast? <;> rfl
    | output p => rfl
    | switch s => rfl

theorem foldl_add_outputs (g : Given) (as : List Argument) :
    (as.foldl add g).outputs = ((Argument.outputs as).map some).reverse ++ g.outputs := by
  induction as generalizing g with
  | nil => rfl
  | cons a as ih =>
    rw [List.foldl_cons, ih]
    cases a with
    | input p => rfl
    | output p => simp [add, Argument.outputs]
    | switch s => rfl

theorem mem_foldl_add_switches (g : Given) (as : List Argument) (s : Switch) :
    s ∈ (as.foldl add g).switches ↔ .switch s ∈ as ∨ s ∈ g.switches := by
  induction as generalizing g with
  | nil => simp
  | cons a as ih =>
    rw [List.foldl_cons, ih]
    cases a with
    | input p => simp [add]
    | output p => simp [add]
    | switch u => simp [add]; grind

theorem job_eq_ok_iff (g : Given) (j : Job) : g.job = .ok j ↔
    none ∉ g.settle.outputs ∧ g.settle.outputs.length ≤ 1 ∧
      ¬ (.pretty ∈ g.settle.switches ∧ .compact ∈ g.settle.switches) ∧
      g.settle.input = some j.input ∧ j.output = g.settle.outputs.head?.join.getD defaultOutput ∧
      j.format = (if .compact ∈ g.settle.switches then .compact else .pretty) ∧
      j.watch = ⟨.traceTokens ∈ g.settle.switches, .traceProductions ∈ g.settle.switches⟩ := by
  constructor
  · intro h
    unfold job at h
    dsimp only at h
    split at h
    · cases h
    split at h
    · cases h
    split at h
    · cases h
    split at h
    · cases h
    · rename_i hnone hlength hformats _ input hinput
      cases h
      exact ⟨hnone, by omega, hformats, hinput, rfl, rfl, rfl⟩
  · rintro ⟨hnone, hlength, hformats, hinput, houtput, hformat, hwatch⟩
    unfold job
    dsimp only
    rw [if_neg hnone, if_neg (by omega), if_neg hformats, hinput]
    dsimp only
    rw [← houtput, ← hformat, ← hwatch]

/-- Of the words only their arguments matter. -/
theorem job_eq_ok_iff_requests {g : Given} {as : List Argument} {l : Bool}
    (hg : g.settle = { as.foldl add {} with literal := l })
    (h : (Argument.inputs as).length ≤ 1) (j : Job) :
    g.job = .ok j ↔ Argument.Requests as j := by
  rw [job_eq_ok_iff, hg]
  have hinput : (Argument.inputs as).getLast? = some j.input ↔ Argument.inputs as = [j.input] := by
    match Argument.inputs as, h with
    | [], _ => simp
    | [p], _ => simp
  have houtput : (Argument.outputs as).length ≤ 1 ∧
      j.output = ((Argument.outputs as).map some).reverse.head?.join.getD defaultOutput ↔
        Argument.outputs as = [j.output] ∨
          Argument.outputs as = [] ∧ j.output = defaultOutput := by
    match Argument.outputs as with
    | [] => simp
    | [p] => simp [eq_comm]
    | p :: q :: ps => simp
  simp only [foldl_add_input, foldl_add_outputs, mem_foldl_add_switches, List.append_nil,
    List.not_mem_nil, or_false, Option.or_none, List.length_reverse, List.length_map, hinput]
  constructor
  · rintro ⟨-, hlength, hformats, hin, hout, hformat, hwatch⟩
    exact ⟨hin, houtput.mp ⟨hlength, hout⟩, hformats, hformat, hwatch⟩
  · rintro ⟨hin, hout, hformats, hformat, hwatch⟩
    obtain ⟨hlength, hhead⟩ := houtput.mpr hout
    exact ⟨by simp, hlength, hformats, hin, hhead, hformat, hwatch⟩

theorem literal_of_take {g g' : Given} {w : String} (h : g.take w = .ok g')
    (hl' : g'.literal = false) : g.literal = false ∧ w ≠ "--" := by
  have hsettle : g.settle.literal = g.literal := by
    unfold settle
    split <;> rfl
  cases hl : g.literal with
  | true =>
    rw [take_literal hl] at h
    obtain ⟨-, -, rfl⟩ := positional_eq_ok h
    rw [hsettle, hl] at hl'
    cases hl'
  | false =>
    refine ⟨rfl, ?_⟩
    rintro rfl
    have htake := take_of_takes hl .literal
    rw [h] at htake
    cases htake
    cases hl'

end Given

/-- The word asks for help or for the version. -/
def AsksForInfo (w : String) : Prop :=
  w = "--help" ∨ w = "--version" ∨ "-h".toList <+: w.toList ∨ "-V".toList <+: w.toList

instance : DecidablePred AsksForInfo := fun w =>
  inferInstanceAs (Decidable (w = "--help" ∨ w = "--version" ∨ "-h".toList <+: w.toList ∨
    "-V".toList <+: w.toList))

/-- Such an answer, other than a complaint, is what the words come to. -/
def Halt.IsInfo : Halt → Prop
  | help | version => True
  | usage _ => False

namespace Given

theorem output_ne_info {g : Given} {p : String} {halt : Halt} (h : g.output p = .error halt) :
    ¬ halt.IsInfo := by
  unfold output at h
  split at h
  · cases h
    exact id
  · cases h

theorem positional_ne_info {g : Given} {p : String} {halt : Halt}
    (h : g.positional p = .error halt) : ¬ halt.IsInfo := by
  unfold positional at h
  split at h
  · cases h
    exact id
  · split at h
    · cases h
      exact id
    · cases h

theorem long_info {g : Given} {name : String} {attached : Option String} {halt : Halt}
    (h : g.long name attached = .error halt) (hi : halt.IsInfo) :
    attached = none ∧ (name = "help" ∨ name = "version") := by
  unfold long at h
  split at h
  · split at h
    · exact absurd hi (output_ne_info h)
    · cases h
  · split at h
    · split at h <;> cases h <;> exact hi.elim
    · rename_i hnone
      refine ⟨by simpa using hnone, ?_⟩
      split at h
      · exact Or.inl ‹_›
      · split at h
        · exact Or.inr ‹_›
        · split at h <;> cases h
          exact hi.elim

theorem short_info {g : Given} {c : Char} {cs : List Char} {halt : Halt}
    (h : g.short c cs = .error halt) (hi : halt.IsInfo) : c = 'h' ∨ c = 'V' := by
  unfold short at h
  split at h
  · exact Or.inl rfl
  · exact Or.inr rfl
  · cases h
  · exact absurd hi (output_ne_info h)
  · exact absurd hi (output_ne_info h)
  · cases h
    exact hi.elim

/-- Only a word that asks for information is answered with it. -/
theorem asksForInfo_of_take {g : Given} {w : String} {halt : Halt} (h : g.take w = .error halt)
    (hi : halt.IsInfo) : g.literal = false ∧ AsksForInfo w := by
  have hword {cs : List Char} (hw : w.toList = cs) : w = String.ofList cs := by
    rw [← hw, String.ofList_toList]
  cases hl : g.literal with
  | true =>
    rw [take_literal hl] at h
    exact absurd hi (positional_ne_info h)
  | false =>
    refine ⟨rfl, ?_⟩
    unfold take at h
    rw [hl, if_neg (by simp)] at h
    split at h
    · cases h
    · rename_i cs _ hw
      rw [hword hw]
      obtain ⟨hnone, hname⟩ := long_info h hi
      have htake : cs.takeWhile (· ≠ '=') = cs := by
        rcases attachedValue_cases cs with ⟨-, htake⟩ | ⟨value, hsome, -⟩
        · exact htake
        · rw [hsome] at hnone
          cases hnone
      rw [htake] at hname
      exact hname.imp ofList_dashes fun hversion => Or.inl (ofList_dashes hversion)
    · rename_i c cs _ _ hw
      rw [AsksForInfo, hw]
      rcases short_info h hi with rfl | rfl
      · exact Or.inr (Or.inr (Or.inl ⟨cs, rfl⟩))
      · exact Or.inr (Or.inr (Or.inr ⟨cs, rfl⟩))
    · split at h
      · exact absurd hi (output_ne_info h)
      · exact absurd hi (positional_ne_info h)

theorem asksForInfo_of_foldlM {g : Given} {ws : List String} {halt : Halt}
    (h : ws.foldlM take g = .error halt) (hi : halt.IsInfo) : g.literal = false ∧
      ∃ before w after, ws = before ++ w :: after ∧ "--" ∉ before ∧ AsksForInfo w := by
  induction ws generalizing g with
  | nil => cases h
  | cons w ws ih =>
    rw [List.foldlM_cons] at h
    cases hw : g.take w with
    | error e =>
      rw [hw] at h
      cases h
      obtain ⟨hl, hasks⟩ := asksForInfo_of_take hw hi
      exact ⟨hl, [], w, ws, rfl, by simp, hasks⟩
    | ok next =>
      rw [hw] at h
      obtain ⟨hnext, before, v, after, rfl, hbefore, hasks⟩ := ih h
      obtain ⟨hl, hne⟩ := literal_of_take hw hnext
      exact ⟨hl, w :: before, v, after, rfl, by simp [Ne.symm hne, hbefore], hasks⟩

theorem job_ne_info {g : Given} {halt : Halt} (h : g.job = .error halt) : ¬ halt.IsInfo := by
  unfold job at h
  dsimp only at h
  split at h
  · cases h
    exact id
  split at h
  · cases h
    exact id
  split at h
  · cases h
    exact id
  split at h
  · cases h
    exact id
  · cases h

end Given

namespace Job

/-- A command line asks for a job exactly if its words spell the arguments for it. -/
theorem ofArguments_eq_ok_iff (words : List String) (j : Job) :
    ofArguments words = .ok j ↔ ∃ as, Spells words as ∧ Argument.Requests as j := by
  unfold ofArguments
  constructor
  · intro h
    cases hg : words.foldlM Given.take {} with
    | error e =>
      rw [hg] at h
      cases h
    | ok g =>
      rw [hg] at h
      have hnone := ((g.job_eq_ok_iff j).mp h).1
      obtain ⟨as, hspells, hlength, hsettle⟩ := Given.spells_of_foldlM rfl rfl hg hnone
      exact ⟨as, hspells, (Given.job_eq_ok_iff_requests hsettle hlength j).mp h⟩
  · rintro ⟨as, hspells, hrequests⟩
    have hinputs : (Argument.inputs as).length ≤ 1 := by
      rw [hrequests.input]
      simp
    obtain ⟨l, hfold⟩ := Given.foldlM_of_spells hspells (g := {}) rfl rfl hinputs
    have hsettle : Given.settle { as.foldl Given.add {} with literal := l } =
        { as.foldl Given.add {} with literal := l } :=
      Given.settle_eq_self (Given.foldl_add_awaiting {} as)
    rw [hfold]
    exact (Given.job_eq_ok_iff_requests hsettle hinputs j).mpr hrequests

/-- Information is given only if a word that is no literal one asks for it. -/
theorem asksForInfo_of_ofArguments {words : List String} {halt : Halt}
    (h : ofArguments words = .error halt) (hi : halt.IsInfo) :
    ∃ before w after, words = before ++ w :: after ∧ "--" ∉ before ∧ AsksForInfo w := by
  unfold ofArguments at h
  cases hg : words.foldlM Given.take {} with
  | error e =>
    rw [hg] at h
    cases h
    exact (Given.asksForInfo_of_foldlM hg hi).2
  | ok g =>
    rw [hg] at h
    exact absurd hi (Given.job_ne_info h)

end Job

end BareBones.CommandLine
