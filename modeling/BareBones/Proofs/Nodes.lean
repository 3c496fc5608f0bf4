import BareBones.Proofs.Coordinates

/-!
The nodes of expressions. A node is a number, a name, a group or a chain, and stands in a
program behind the tokens that the tree spells before it. `InPlace` says that the nodes of
an expression have the spans of the tokens that they consist of, when the expression begins
at a given token; from that follow the extent of each node, that it contains the ones below
it and that these stand one behind the other (`Expr.extent_of_inPlace`,
`Expr.children_within`, `Expr.children_apart`).
-/

namespace BareBones

/-! ## The nodes of a tree -/

namespace Expr

/-- The factors of a chain, each with the tokens of the chain that stand before it. -/
def operands : Expr → List (List Token × Expr)
  | factor f => [([], factor f)]
  | binary left op right => left.operands ++ [(left.tokens ++ [.arithmetic op], factor right)]

/-- The nodes directly below a node, each with the tokens of the node before it. -/
def children : Expr → List (List Token × Expr)
  | factor (.group e _) => [([.openParen], e)]
  | factor _ => []
  | binary left op right => (binary left op right).operands

/-- A node at any depth, behind the tokens of the expression that stand before it. -/
inductive HasNode : Expr → List Token → Expr → Prop
  | self (e : Expr) : HasNode e [] e
  | deeper {e n : Expr} {c : List Token × Expr} {before : List Token} :
      c ∈ e.children → HasNode c.2 before n → HasNode e (c.1 ++ before) n

end Expr

/-- Expressions behind further tokens. -/
def behindTokens (w : List Token) (values : List (List Token × Expr)) :
    List (List Token × Expr) :=
  values.map fun v => (w ++ v.1, v.2)

mutual

/-- The expressions that a statement evaluates, each with the tokens of the statement
before it. -/
def Statement.values : Statement → List (List Token × Expr)
  | .declare x (some e) => [([.keyword .let_, .id x.val, .assign], e)]
  | .assign x e => [([.id x.val, .assign], e)]
  | .ifThen c body => behindTokens (c.guard .if_ ++ [.openCurly]) (Statement.valuesAll body)
  | .ifElse c body otherwise =>
    behindTokens (c.guard .if_ ++ [.openCurly]) (Statement.valuesAll body) ++
      behindTokens
        (c.guard .if_ ++ braced (Statement.tokensAll body) ++ [.keyword .else_, .openCurly])
        (Statement.valuesAll otherwise)
  | .whileDo c body => behindTokens (c.guard .while_ ++ [.openCurly]) (Statement.valuesAll body)
  | .dotimes b body =>
    behindTokens [.keyword .dotimes, .openParen, b.val.token, .closeParen, .openCurly]
      (Statement.valuesAll body)
  | _ => []

def Statement.valuesAll : List Statement → List (List Token × Expr)
  | [] => []
  | s :: rest => s.values ++ behindTokens s.tokens (Statement.valuesAll rest)

end

/-- The node `n` stands behind the tokens `before` of the program. -/
def Program.HasNode (p : Program) (before : List Token) (n : Expr) : Prop :=
  ∃ v ∈ Statement.valuesAll p.statements, ∃ inner, v.2.HasNode inner n ∧ before = v.1 ++ inner

theorem mem_behindTokens {w : List Token} {values : List (List Token × Expr)}
    {v : List Token × Expr} :
    v ∈ behindTokens w values ↔ ∃ u ∈ values, (w ++ u.1, u.2) = v :=
  List.mem_map

theorem behindTokens_append (w : List Token) (us vs : List (List Token × Expr)) :
    behindTokens w (us ++ vs) = behindTokens w us ++ behindTokens w vs :=
  List.map_append

theorem behindTokens_behindTokens (w u : List Token) (values : List (List Token × Expr)) :
    behindTokens w (behindTokens u values) = behindTokens (w ++ u) values := by
  simp [behindTokens]

theorem Statement.valuesAll_append (ss rest : List Statement) :
    valuesAll (ss ++ rest) = valuesAll ss ++ behindTokens (tokensAll ss) (valuesAll rest) := by
  induction ss with
  | nil => simp [valuesAll, tokensAll, behindTokens]
  | cons s ss ih =>
    rw [List.cons_append, valuesAll, ih, valuesAll, tokensAll, behindTokens_append,
      behindTokens_behindTokens, List.append_assoc]

/-! ## Nodes and the tokens of the tree -/

namespace Expr

theorem tokens_ne_nil (e : Expr) : e.tokens ≠ [] := by
  cases e with
  | factor f => cases f <;> simp
  | binary left op right => simp

theorem tokens_of_mem_operands {e : Expr} {c : List Token × Expr} (hc : c ∈ e.operands) :
    c.1 ++ c.2.tokens <+: e.tokens := by
  match e with
  | factor f =>
    obtain rfl := List.mem_singleton.mp hc
    exact List.prefix_rfl
  | binary left op right =>
    rw [tokens_binary]
    rcases List.mem_append.mp hc with hc | hc
    · exact (tokens_of_mem_operands hc).trans (List.prefix_append ..)
    · obtain rfl := List.mem_singleton.mp hc
      simp

theorem tokens_of_mem_children {e : Expr} {c : List Token × Expr} (hc : c ∈ e.children) :
    c.1 ++ c.2.tokens <+: e.tokens := by
  match e with
  | factor (.group inner s) =>
    obtain rfl := List.mem_singleton.mp hc
    simp
  | factor (.number n s) => cases hc
  | factor (.var x s) => cases hc
  | binary left op right => exact tokens_of_mem_operands hc

theorem HasNode.tokens {e n : Expr} {before : List Token} (h : e.HasNode before n) :
    before ++ n.tokens <+: e.tokens := by
  induction h with
  | self e => exact List.prefix_rfl
  | deeper hc _ ih =>
    rw [List.append_assoc]
    exact ((List.prefix_append_right_inj _).mpr ih).trans (tokens_of_mem_children hc)

/-- Each operand of a chain ends before the next one begins. -/
theorem operands_pairwise (e : Expr) :
    e.operands.Pairwise fun c d => c.1 ++ c.2.tokens <+: d.1 := by
  match e with
  | factor f => exact List.pairwise_singleton _ _
  | binary left op right =>
    rw [operands, List.pairwise_append]
    refine ⟨left.operands_pairwise, List.pairwise_singleton _ _, fun c hc d hd => ?_⟩
    obtain rfl := List.mem_singleton.mp hd
    exact (tokens_of_mem_operands hc).trans (List.prefix_append ..)

theorem children_pairwise (e : Expr) :
    e.children.Pairwise fun c d => c.1 ++ c.2.tokens <+: d.1 := by
  match e with
  | factor (.group inner s) => exact List.pairwise_singleton _ _
  | factor (.number n s) => exact .nil
  | factor (.var x s) => exact .nil
  | binary left op right => exact operands_pairwise _

end Expr

/-- The expressions lie within the tokens `w`. -/
def Within (w : List Token) (values : List (List Token × Expr)) : Prop :=
  ∀ v ∈ values, v.1 ++ v.2.tokens <+: w

namespace Within

variable {w u : List Token} {values : List (List Token × Expr)}

theorem mono (h : Within w values) (hw : w <+: u) : Within u values :=
  fun v hv => (h v hv).trans hw

theorem behind (h : Within w values) (u : List Token) :
    Within (u ++ w) (behindTokens u values) := by
  intro v hv
  obtain ⟨v', hv', rfl⟩ := mem_behindTokens.mp hv
  rw [List.append_assoc]
  exact (List.prefix_append_right_inj u).mpr (h v' hv')

end Within

mutual

theorem Statement.values_within (s : Statement) : Within s.tokens s.values := by
  cases s with
  | declare x value =>
    cases value with
    | none => exact List.forall_mem_nil _
    | some e => exact List.forall_mem_singleton.mpr (by simp [Statement.tokens])
  | assign x e => exact List.forall_mem_singleton.mpr (by simp [Statement.tokens])
  | ifThen c body =>
    exact ((Statement.valuesAll_within body).behind _).mono (by simp [Statement.tokens, braced])
  | ifElse c body otherwise =>
    refine List.forall_mem_append.mpr ⟨((Statement.valuesAll_within body).behind _).mono ?_,
      ((Statement.valuesAll_within otherwise).behind _).mono ?_⟩
    · simp [Statement.tokens, braced]
    · simp [Statement.tokens, braced]
  | whileDo c body =>
    exact ((Statement.valuesAll_within body).behind _).mono (by simp [Statement.tokens, braced])
  | dotimes b body =>
    exact ((Statement.valuesAll_within body).behind _).mono (by simp [Statement.tokens, braced])
  | print first more => exact List.forall_mem_nil _
  | read x => exact List.forall_mem_nil _

theorem Statement.valuesAll_within (ss : List Statement) :
    Within (Statement.tokensAll ss) (Statement.valuesAll ss) := by
  cases ss with
  | nil => exact List.forall_mem_nil _
  | cons s rest =>
    exact List.forall_mem_append.mpr ⟨s.values_within.mono (List.prefix_append ..),
      (Statement.valuesAll_within rest).behind _⟩

end

/-- A node of a program consists of the tokens behind those before it. -/
theorem Program.HasNode.tokens {p : Program} {before : List Token} {n : Expr}
    (h : p.HasNode before n) : before ++ n.tokens <+: Statement.tokensAll p.statements := by
  obtain ⟨v, hv, inner, hn, rfl⟩ := h
  rw [List.append_assoc]
  exact ((List.prefix_append_right_inj _).mpr hn.tokens).trans
    (Statement.valuesAll_within _ v hv)

/-! ## Nodes and spans -/

variable {spans : List Span} {i : Nat}

mutual

/-- The factor has the span of the token at `i`, or of the parentheses at `i` and behind
what they enclose, and all in them is in place as well. -/
def Factor.InPlace (spans : List Span) (i : Nat) : Factor → Prop
  | .number _ s => spans[i]? = some s
  | .var _ s => spans[i]? = some s
  | .group e s => (∃ a b, spans[i]? = some a ∧ spans[i + 1 + e.tokens.length]? = some b ∧
      s = a.upTo b) ∧ e.InPlace spans (i + 1)

/-- Every factor has the span of its tokens, the first of which has the `i`-th span. -/
def Expr.InPlace (spans : List Span) (i : Nat) : Expr → Prop
  | .factor f => f.InPlace spans i
  | .binary left _ right =>
    left.InPlace spans i ∧ right.InPlace spans (i + left.tokens.length + 1)

end

/-- The node reaches from the first position of its first token to the last position of its
last one. -/
def Expr.Extent (spans : List Span) (i : Nat) (n : Expr) : Prop :=
  ∃ a b, spans[i]? = some a ∧ spans[i + n.tokens.length - 1]? = some b ∧ n.span = a.upTo b

/-- The extent of a node in terms of its tokens, those before them and those behind them. -/
theorem Expr.Extent.ends {n : Expr} {ws ts vs : List (Located Token)}
    (h : n.Extent ((ws ++ ts ++ vs).map (·.span)) ws.length)
    (hlength : ts.length = n.tokens.length) :
    ∃ t u, ts.head? = some t ∧ ts.getLast? = some u ∧
      n.span.first = t.span.first ∧ n.span.last = u.span.last := by
  obtain ⟨a, b, ha, hb, hspan⟩ := h
  have hpos : 0 < ts.length := hlength ▸ List.length_pos_iff.mpr n.tokens_ne_nil
  have hne : ts ≠ [] := List.length_pos_iff.mp hpos
  have hfirst : (ws ++ ts ++ vs)[ws.length]? = some (ts.head hne) := by
    rw [List.append_assoc, List.getElem?_append_right (Nat.le_refl _), Nat.sub_self,
      List.getElem?_append_left hpos, ← List.head?_eq_getElem?, List.head?_eq_some_head hne]
  have hlast : (ws ++ ts ++ vs)[ws.length + n.tokens.length - 1]? = some (ts.getLast hne) := by
    have hindex : ws.length + n.tokens.length - 1 = ws.length + (ts.length - 1) := by omega
    rw [hindex, List.append_assoc, List.getElem?_append_right (by omega),
      Nat.add_sub_cancel_left, List.getElem?_append_left (by omega), ← List.getLast?_eq_getElem?,
      List.getLast?_eq_some_getLast hne]
  rw [List.getElem?_map, hfirst] at ha
  rw [List.getElem?_map, hlast] at hb
  cases ha
  cases hb
  exact ⟨ts.head hne, ts.getLast hne, List.head?_eq_some_head hne,
    List.getLast?_eq_some_getLast hne, by rw [hspan]; rfl, by rw [hspan]; rfl⟩

theorem Factor.extent_of_inPlace {f : Factor} (h : f.InPlace spans i) :
    (Expr.factor f).Extent spans i := by
  cases f with
  | number n s => exact ⟨s, s, h, h, rfl⟩
  | var x s => exact ⟨s, s, h, h, rfl⟩
  | group e s =>
    obtain ⟨⟨a, b, ha, hb, hs⟩, -⟩ := h
    have hlast : i + (Expr.factor (.group e s)).tokens.length - 1 = i + 1 + e.tokens.length := by
      simp only [Expr.tokens_factor, Factor.tokens_group, List.length_cons, List.length_append,
        List.length_nil]
      omega
    exact ⟨a, b, ha, hlast ▸ hb, hs⟩

theorem Expr.extent_of_inPlace {e : Expr} (h : e.InPlace spans i) : e.Extent spans i := by
  match e with
  | .factor f => exact Factor.extent_of_inPlace h
  | .binary left op right =>
    obtain ⟨a, b, ha, -, hleft⟩ := extent_of_inPlace h.1
    obtain ⟨c, d, -, hd, hright⟩ := Factor.extent_of_inPlace h.2
    have hne : 0 < right.tokens.length := List.length_pos_iff.mpr (factor right).tokens_ne_nil
    have hlast : i + left.tokens.length + 1 + right.tokens.length - 1 =
        i + (binary left op right).tokens.length - 1 := by
      simp only [tokens_binary, List.length_append, List.length_cons]
      omega
    have hright : right.span = c.upTo d := hright
    refine ⟨a, d, ha, hlast ▸ hd, ?_⟩
    rw [span, hleft, hright]
    rfl

theorem Expr.inPlace_of_mem_operands {e : Expr} (h : e.InPlace spans i) {c : List Token × Expr}
    (hc : c ∈ e.operands) : c.2.InPlace spans (i + c.1.length) := by
  match e with
  | .factor f =>
    obtain rfl := List.mem_singleton.mp hc
    exact h
  | .binary left op right =>
    rcases List.mem_append.mp hc with hc | hc
    · exact inPlace_of_mem_operands h.1 hc
    · obtain rfl := List.mem_singleton.mp hc
      simpa [InPlace, Nat.add_assoc] using h.2

theorem Expr.inPlace_of_mem_children {e : Expr} (h : e.InPlace spans i) {c : List Token × Expr}
    (hc : c ∈ e.children) : c.2.InPlace spans (i + c.1.length) := by
  match e with
  | .factor (.group inner s) =>
    obtain rfl := List.mem_singleton.mp hc
    exact h.2
  | .factor (.number n s) => cases hc
  | .factor (.var x s) => cases hc
  | .binary left op right => exact inPlace_of_mem_operands h hc

theorem Expr.HasNode.inPlace {e n : Expr} {before : List Token} (hn : e.HasNode before n)
    (h : e.InPlace spans i) : n.InPlace spans (i + before.length) := by
  induction hn generalizing i with
  | self e => exact h
  | deeper hc _ ih =>
    rw [List.length_append, ← Nat.add_assoc]
    exact ih (inPlace_of_mem_children h hc)

/-! ## Spans in the order of the text -/

/-- Tokens that follow each other in a text. -/
structure InOrder (spans : List Span) : Prop where
  proper : ∀ a ∈ spans, a.first ≤ a.last
  disjoint : spans.Pairwise fun a b => a.last < b.first

namespace InOrder

theorem last_lt_first (h : InOrder spans) {j : Nat} (hij : i < j) {a b : Span}
    (ha : spans[i]? = some a) (hb : spans[j]? = some b) : a.last < b.first := by
  obtain ⟨hi, rfl⟩ := List.getElem?_eq_some_iff.mp ha
  obtain ⟨hj, rfl⟩ := List.getElem?_eq_some_iff.mp hb
  exact List.pairwise_iff_getElem.mp h.disjoint i j hi hj hij

theorem first_le_first (h : InOrder spans) {j : Nat} (hij : i ≤ j) {a b : Span}
    (ha : spans[i]? = some a) (hb : spans[j]? = some b) : a.first ≤ b.first := by
  rcases Nat.lt_or_eq_of_le hij with hij | rfl
  · exact Position.le_trans (h.proper a (List.mem_of_getElem? ha))
      (Position.le_of_lt (h.last_lt_first hij ha hb))
  · obtain rfl := Option.some.inj (ha.symm.trans hb)
    exact a.first.le_refl

theorem last_le_last (h : InOrder spans) {j : Nat} (hij : i ≤ j) {a b : Span}
    (ha : spans[i]? = some a) (hb : spans[j]? = some b) : a.last ≤ b.last := by
  rcases Nat.lt_or_eq_of_le hij with hij | rfl
  · exact Position.le_trans (Position.le_of_lt (h.last_lt_first hij ha hb))
      (h.proper b (List.mem_of_getElem? hb))
  · obtain rfl := Option.some.inj (ha.symm.trans hb)
    exact a.last.le_refl

end InOrder

namespace Expr

/-- A node lies within any other whose tokens include its own. -/
theorem Extent.within (horder : InOrder spans) {n m : Expr} {j : Nat} (hn : n.Extent spans i)
    (hm : m.Extent spans j) (hij : i ≤ j)
    (hend : j + m.tokens.length ≤ i + n.tokens.length) :
    n.span.first ≤ m.span.first ∧ m.span.last ≤ n.span.last := by
  obtain ⟨a, b, ha, hb, hspan⟩ := hn
  obtain ⟨c, d, hc, hd, hspan'⟩ := hm
  have hlast : j + m.tokens.length - 1 ≤ i + n.tokens.length - 1 := by omega
  have hfirsts : a.first ≤ c.first := horder.first_le_first hij ha hc
  have hlasts : d.last ≤ b.last := horder.last_le_last hlast hd hb
  rw [hspan, hspan']
  exact ⟨hfirsts, hlasts⟩

/-- A node ends before any other begins whose tokens stand behind its own. -/
theorem Extent.apart (horder : InOrder spans) {n m : Expr} {j : Nat} (hn : n.Extent spans i)
    (hm : m.Extent spans j) (hend : i + n.tokens.length ≤ j) : n.span.last < m.span.first := by
  have hpos : 0 < n.tokens.length := List.length_pos_iff.mpr n.tokens_ne_nil
  obtain ⟨a, b, -, hb, hspan⟩ := hn
  obtain ⟨c, d, hc, -, hspan'⟩ := hm
  have hbehind : i + n.tokens.length - 1 < j := by omega
  have hapart : b.last < c.first := horder.last_lt_first hbehind hb hc
  rw [hspan, hspan']
  exact hapart

theorem children_within (horder : InOrder spans) {n : Expr} (h : n.InPlace spans i) :
    ∀ c ∈ n.children, n.span.first ≤ c.2.span.first ∧ c.2.span.last ≤ n.span.last := by
  intro c hc
  have hlength := (tokens_of_mem_children hc).length_le
  rw [List.length_append] at hlength
  exact (extent_of_inPlace h).within horder (extent_of_inPlace (inPlace_of_mem_children h hc))
    (by omega) (by omega)

theorem children_apart (horder : InOrder spans) {n : Expr} (h : n.InPlace spans i) :
    n.children.Pairwise fun c d => c.2.span.last < d.2.span.first := by
  refine n.children_pairwise.imp_of_mem fun {c d} hc hd hprefix => ?_
  have hlength := hprefix.length_le
  rw [List.length_append] at hlength
  exact (extent_of_inPlace (inPlace_of_mem_children h hc)).apart horder
    (extent_of_inPlace (inPlace_of_mem_children h hd)) (by omega)

end Expr

end BareBones
