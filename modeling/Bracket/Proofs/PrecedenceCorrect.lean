import Bracket.Eval.Run
import Bracket.Proofs.Chunks
import Bracket.Proofs.Precedence

/-!
# Bracket.Proofs.PrecedenceCorrect

The reduction of a chain computes the value of the tree that precedence makes of it
(`evalTerms_precedence`).

What carries the induction is `OpTree.collapse n`: the chain when all operators below the level `n`
have been reduced. A subtree with such an operator at its root has become one literal by then, all
other operators still stand in the chain. One sweep leads from a level to the next, whatever lies
to the left of the chain and whatever has been passed (`sweep_collapse`).
-/

namespace Bracket

def Tier.level : Tier → Nat
  | .power => 0
  | .product => 1
  | .sum => 2
  | .comparison => 3
  | .assignment => 4

theorem Tier.op?_op (tier : Tier) (o : ChainOp) :
    tier.op? (.source (.op o.op)) = if o.level = tier.level then some o.op else none := by
  cases o <;> cases tier <;> rfl

theorem Arithmetic.result?_op (a : Arithmetic) (o : ChainOp) (x y : Float) :
    a.result? o.op x y = some (o.apply a x y) := by
  cases o <;> rfl

namespace OpTree

/-- The chain when the operators below the level have been reduced. -/
def collapse (a : Arithmetic) (n : Nat) : OpTree → List Operand
  | .number x => [.source (.literal (some x))]
  | .group t => [.source (.group t.terms)]
  | .binary o l r =>
    if o.level < n then [.reduced (some (o.apply a (l.value a) (r.value a)))]
    else l.collapse a n ++ .source (.op o.op) :: r.collapse a n

theorem collapse_zero (a : Arithmetic) (t : OpTree) :
    t.collapse a 0 = t.terms.map Operand.source := by
  induction t with
  | number x => rfl
  | group t => rfl
  | binary o l r ihl ihr => simp [collapse, terms, ihl, ihr]

/-- All operands of the tree have the value the tree gives them, and evaluating them changes
nothing. -/
def Known {σ : Type} (e : Evaluator σ) (s : σ) : OpTree → Prop
  | .number x => e.term (.literal (some x)) s = .done (.number x) s
  | .group t => e.term (.group t.terms) s = .done (.number (t.value e.arithmetic)) s
  | .binary _ l r => l.Known e s ∧ r.Known e s

end OpTree

namespace Evaluator

variable {σ : Type} {e : Evaluator σ} {s : σ}

/-! ## One reduction -/

theorem number_apply {x : Operand} {v : Float} (o : Op)
    (h : e.operand x s = .done (.number v) s) : e.number o x s = .done v s := by
  rw [number, Eval.bind_apply, h]
  rfl

theorem reduce_apply {x y : Operand} {v w : Float} (o : ChainOp)
    (hx : e.operand x s = .done (.number v) s) (hy : e.operand y s = .done (.number w) s) :
    e.reduce o.op x y s = .done (some (o.apply e.arithmetic v w)) s := by
  have hassign : o.op ≠ .assign := by cases o <;> decide
  rw [reduce, if_neg hassign, binary, Eval.bind_apply, number_apply o.op hx]
  show ((e.number o.op y >>= _) s : Outcome _ _ _) = _
  rw [Eval.bind_apply, number_apply o.op hy]
  simp only [Outcome.andThen, Arithmetic.result?_op]
  rfl

/-- A tree whose operators have all been reduced is one operand. -/
theorem collapse_single {t : OpTree} {n : Nat} (hk : t.Known e s) (hn : t.Below n) :
    ∃ x, t.collapse e.arithmetic n = [x] ∧ x.op? = none ∧
      e.operand x s = .done (.number (t.value e.arithmetic)) s := by
  cases t with
  | number x => exact ⟨_, rfl, rfl, hk⟩
  | group t => exact ⟨_, rfl, rfl, hk⟩
  | binary o l r =>
    have hlt : o.level < n := hn
    refine ⟨.reduced (some (o.apply e.arithmetic (l.value _) (r.value _))), ?_, rfl, rfl⟩
    simp only [OpTree.collapse, if_pos hlt]

/-! ## One sweep -/

theorem sweep_operand {tier : Tier} {x : Operand} (h : tier.op? x = none)
    (before passed : List Operand) :
    e.sweep tier (x :: before) passed = e.sweep tier before (x :: passed) := by
  rw [sweep, h]

theorem sweep_operator {tier : Tier} {o : ChainOp} (h : o.level = tier.level) {x y : Operand}
    (hx : x.op? = none) (hy : y.op? = none) (before passed : List Operand) :
    e.sweep tier (.source (.op o.op) :: x :: before) (y :: passed) =
      e.reduce o.op x y >>= fun v => e.sweep tier before (.reduced v :: passed) := by
  rw [sweep, Tier.op?_op, if_pos h]
  simp [hx, hy]

theorem sweep_collapse {t : OpTree} (ht : t.Ordered) (hk : t.Known e s) (tier : Tier) :
    ∀ before passed,
      e.sweep tier ((t.collapse e.arithmetic tier.level).reverse ++ before) passed s =
        e.sweep tier before (t.collapse e.arithmetic (tier.level + 1) ++ passed) s := by
  induction t with
  | number x => exact fun before passed => congrFun (sweep_operand rfl before passed) s
  | group t => exact fun before passed => congrFun (sweep_operand rfl before passed) s
  | binary o l r ihl ihr =>
    intro before passed
    obtain ⟨hl, hr, hlb, hrb⟩ := ht
    obtain ⟨hlk, hrk⟩ := hk
    rcases Nat.lt_trichotomy o.level tier.level with hlt | heq | hgt
    · -- reduced by an earlier sweep
      have hlt' : o.level < tier.level + 1 := by omega
      simp only [OpTree.collapse, if_pos hlt, if_pos hlt']
      exact congrFun (sweep_operand rfl before passed) s
    · -- reduced now, when everything on both of its sides has been
      have hlt : ¬ o.level < tier.level := by omega
      have hlt' : o.level < tier.level + 1 := by omega
      rw [heq] at hlb hrb
      obtain ⟨x, hlx, hx, hxv⟩ := collapse_single hlk hlb
      obtain ⟨y, hry, hy, hyv⟩ := collapse_single hrk hrb
      simp only [OpTree.collapse, if_neg hlt, if_pos hlt', hlx, List.cons_append, List.nil_append,
        List.reverse_cons, List.append_assoc]
      rw [ihr hr hrk, hry]
      show e.sweep tier (.source (.op o.op) :: x :: before) (y :: passed) s = _
      rw [sweep_operator heq hx hy, Eval.bind_apply, reduce_apply o hxv hyv]
      rfl
    · -- left for a later sweep
      have hlt : ¬ o.level < tier.level := by omega
      have hlt' : ¬ o.level < tier.level + 1 := by omega
      simp only [OpTree.collapse, if_neg hlt, if_neg hlt', List.reverse_append, List.reverse_cons,
        List.append_assoc, List.cons_append, List.nil_append]
      have hpass : tier.op? (.source (.op o.op)) = none := by
        rw [Tier.op?_op, if_neg (by omega)]
      rw [ihr hr hrk, sweep_operand hpass, ihl hl hlk]

/-- The chains that stand side by side in one chunk. -/
def row (a : Arithmetic) (n : Nat) (ts : List OpTree) : List Operand :=
  ts.flatMap (OpTree.collapse a n)

theorem sweep_row {ts : List OpTree} (hts : ∀ t ∈ ts, t.Ordered ∧ t.Known e s) (tier : Tier) :
    ∀ before passed,
      e.sweep tier ((row e.arithmetic tier.level ts).reverse ++ before) passed s =
        e.sweep tier before (row e.arithmetic (tier.level + 1) ts ++ passed) s := by
  induction ts with
  | nil => intro before passed; rfl
  | cons t ts ih =>
    intro before passed
    obtain ⟨⟨ht, hk⟩, hts⟩ := List.forall_mem_cons.mp hts
    have ih := ih hts
    simp only [row, List.flatMap_cons, List.reverse_append, List.append_assoc] at ih ⊢
    rw [ih, sweep_collapse ht hk]

/-! ## Chunks -/

theorem reduceTiers_row {ts : List OpTree} (hts : ∀ t ∈ ts, t.Ordered ∧ t.Known e s) (tier : Tier)
    (looser : List Tier) :
    e.reduceTiers (tier :: looser) (row e.arithmetic tier.level ts) s =
      e.reduceTiers looser (row e.arithmetic (tier.level + 1) ts) s := by
  have hsweep := sweep_row hts tier [] []
  rw [List.append_nil, List.append_nil] at hsweep
  rw [reduceTiers, Eval.bind_apply, hsweep]
  rfl

theorem reduceChunk_row {ts : List OpTree} (hts : ∀ t ∈ ts, t.Ordered ∧ t.Known e s) :
    e.reduceChunk (row e.arithmetic 0 ts) s = .done (row e.arithmetic 5 ts) s :=
  calc e.reduceTiers [.power, .product, .sum, .comparison, .assignment] (row e.arithmetic 0 ts) s
    _ = e.reduceTiers [.product, .sum, .comparison, .assignment] (row e.arithmetic 1 ts) s :=
      reduceTiers_row hts .power _
    _ = e.reduceTiers [.sum, .comparison, .assignment] (row e.arithmetic 2 ts) s :=
      reduceTiers_row hts .product _
    _ = e.reduceTiers [.comparison, .assignment] (row e.arithmetic 3 ts) s :=
      reduceTiers_row hts .sum _
    _ = e.reduceTiers [.assignment] (row e.arithmetic 4 ts) s :=
      reduceTiers_row hts .comparison _
    _ = e.reduceTiers [] (row e.arithmetic 5 ts) s := reduceTiers_row hts .assignment _

theorem reduceChunks_rows {rows : List (List OpTree)}
    (h : ∀ t ∈ rows.flatten, t.Ordered ∧ t.Known e s) :
    e.reduceChunks (rows.map (row e.arithmetic 0)) s =
      .done (row e.arithmetic 5 rows.flatten) s := by
  induction rows with
  | nil => rfl
  | cons ts rows ih =>
    rw [List.flatten_cons, List.forall_mem_append] at h
    rw [List.map_cons, reduceChunks, Eval.bind_apply, reduceChunk_row h.1]
    show ((e.reduceChunks (rows.map (row e.arithmetic 0)) >>= _) s : Outcome _ _ _) = _
    rw [Eval.bind_apply, ih h.2]
    simp only [row, List.flatten_cons, List.flatMap_append]
    rfl

end Evaluator

/-! ## Lists of chains -/

namespace OpTree

/-- Chunks of chains with a comma between each two chunks; the chains of a chunk stand side by
side. -/
def rowTerms (ts : List OpTree) : List (List OpTree) → Group
  | [] => ts.flatMap terms
  | us :: rows => ts.flatMap terms ++ .op .comma :: rowTerms us rows

/-- The value of the last tree, null if there is none. -/
def lastValue (a : Arithmetic) (ts : List OpTree) : Value :=
  (ts.getLast?.map fun t => .number (t.value a)).getD .null

theorem no_comma {t : OpTree} : ∀ x ∈ t.terms, x.op? ≠ some .comma := by
  induction t with
  | number x => simp [terms, Term.op?]
  | group t => simp [terms, Term.op?]
  | binary o l r ihl ihr =>
    intro x hx
    simp only [terms, List.mem_append, List.mem_cons] at hx
    rcases hx with hx | rfl | hx
    · exact ihl x hx
    · cases o <;> simp [Term.op?, ChainOp.op]
    · exact ihr x hx

theorem row_zero (a : Arithmetic) (ts : List OpTree) :
    Evaluator.row a 0 ts = (ts.flatMap terms).map Operand.source := by
  rw [Evaluator.row, funext (collapse_zero a), List.map_flatMap]

end OpTree

theorem chunks_rowTerms (a : Arithmetic) (rows : List (List OpTree)) :
    ∀ ts, chunks (OpTree.rowTerms ts rows) = (ts :: rows).map (Evaluator.row a 0) := by
  have hcomma : ∀ ts : List OpTree, ∀ x ∈ ts.flatMap OpTree.terms, x.op? ≠ some .comma := by
    intro ts x hx
    obtain ⟨t, -, hx⟩ := List.mem_flatMap.mp hx
    exact OpTree.no_comma x hx
  induction rows with
  | nil =>
    intro ts
    rw [OpTree.rowTerms, chunks_of_no_comma (hcomma ts), List.map_singleton, OpTree.row_zero]
  | cons us rows ih =>
    intro ts
    rw [OpTree.rowTerms, chunks_comma, chunks_of_no_comma (hcomma ts), ih us]
    simp only [List.map_cons, OpTree.row_zero, List.singleton_append]

namespace Evaluator

variable {σ : Type} {e : Evaluator σ} {s : σ}

theorem lastOf_row {ts : List OpTree} (hts : ∀ t ∈ ts, t.Known e s) :
    ∀ last, e.lastOf last (row e.arithmetic 5 ts) s =
      .done ((ts.getLast?.map fun t => Value.number (t.value e.arithmetic)).getD last) s := by
  induction ts with
  | nil => intro last; rfl
  | cons t ts ih =>
    intro last
    obtain ⟨ht, hts⟩ := List.forall_mem_cons.mp hts
    obtain ⟨x, hrow, -, hx⟩ := collapse_single ht t.below_five
    have hcons : row e.arithmetic 5 (t :: ts) = x :: row e.arithmetic 5 ts := by
      rw [row, List.flatMap_cons, hrow]
      rfl
    rw [hcons, lastOf, Eval.bind_apply, hx]
    show e.lastOf (.number (t.value e.arithmetic)) (row e.arithmetic 5 ts) s = _
    rw [ih hts, List.getLast?_cons]
    cases ts.getLast? <;> rfl

theorem terms_rowTerms {ts : List OpTree} {rows : List (List OpTree)}
    (h : ∀ t ∈ (ts :: rows).flatten, t.Ordered ∧ t.Known e s) :
    e.terms (OpTree.rowTerms ts rows) s =
      .done (OpTree.lastValue e.arithmetic (ts :: rows).flatten) s := by
  rw [terms, Eval.bind_apply, chunks_rowTerms e.arithmetic, reduceChunks_rows h]
  exact lastOf_row (fun t ht => (h t ht).2) .null

theorem terms_chain {t : OpTree} (ht : t.Ordered) (hk : t.Known e s) :
    e.terms t.terms s = .done (.number (t.value e.arithmetic)) s := by
  have hall : ∀ u ∈ [[t]].flatten, u.Ordered ∧ u.Known e s := by simp [ht, hk]
  have h := terms_rowTerms hall
  rw [OpTree.rowTerms, List.flatMap_cons, List.flatMap_nil, List.append_nil] at h
  exact h

end Evaluator

/-! ## Brackets -/

namespace Machine

/-- Within the depth limit the operands of a tree have the values that the tree gives them. -/
theorem known_of_nesting (m : Machine) {t : OpTree} (ht : t.Ordered) :
    ∀ levels c, t.nesting < levels → c.depth + t.nesting ≤ m.maxDepth →
      t.Known (m.evaluator (m.termAt levels)) c := by
  induction t with
  | number x =>
    intro levels c hlevels _
    obtain ⟨l, rfl⟩ : ∃ l, levels = l + 1 := ⟨levels - 1, by omega⟩
    rfl
  | group t ih =>
    intro levels c hlevels hdepth
    simp only [OpTree.nesting] at hlevels hdepth
    obtain ⟨l, rfl⟩ : ∃ l, levels = l + 1 := ⟨levels - 1, by omega⟩
    have hroom : ¬ m.maxDepth ≤ c.depth := by omega
    have ht : t.Ordered := ht
    have hcontent : t.Known (m.evaluator (m.termAt l)) (c.enter []) :=
      ih ht l (c.enter []) (by omega) (by show c.depth + 1 + t.nesting ≤ m.maxDepth; omega)
    show m.bracket (m.termAt l) [] t.terms c = _
    rw [bracket, if_neg hroom, Evaluator.terms_chain ht hcontent]
    rfl
  | binary o l r ihl ihr =>
    intro levels c hlevels hdepth
    simp only [OpTree.nesting] at hlevels hdepth
    obtain ⟨hl, hr, -, -⟩ := ht
    exact ⟨ihl hl levels c (by omega) (by omega), ihr hr levels c (by omega) (by omega)⟩

theorem known (m : Machine) {c : Context} {t : OpTree}
    (h : t.Ordered ∧ c.depth + t.nesting ≤ m.maxDepth) : t.Known (m.evaluator m.evalTerm) c :=
  m.known_of_nesting h.1 m.levels c (by rw [levels]; omega) h.2

end Machine

/-- A chain has exactly one tree that precedence allows. Within the depth limit the terms of the
chain have the value of that tree, for any meaning of the arithmetic operations, and evaluating
them changes nothing. Of several chains, side by side or between commas, each is reduced on its
own, and the last one gives the value. -/
theorem evalTerms_precedence (m : Machine) (c : Context) :
    (∀ ts, IsChain ts ↔ ∃ t : OpTree, t.Ordered ∧ t.terms = ts) ∧
    (∀ t u : OpTree, t.Ordered → u.Ordered → t.terms = u.terms → t = u) ∧
    (∀ t : OpTree, t.Ordered → c.depth + t.nesting ≤ m.maxDepth →
      m.evalTerms t.terms c = .done (.number (t.value m.arithmetic)) c) ∧
    ∀ (ts : List OpTree) (rows : List (List OpTree)),
      (∀ t ∈ (ts :: rows).flatten, t.Ordered ∧ c.depth + t.nesting ≤ m.maxDepth) →
      m.evalTerms (OpTree.rowTerms ts rows) c =
        .done (OpTree.lastValue m.arithmetic (ts :: rows).flatten) c := by
  refine ⟨fun ts => ⟨OpTree.exists_ordered, ?_⟩, fun t u => OpTree.eq_of_terms_eq, ?_, ?_⟩
  · rintro ⟨t, -, rfl⟩
    exact t.isChain_terms
  · intro t ht hdepth
    exact Evaluator.terms_chain ht (m.known ⟨ht, hdepth⟩)
  · intro ts rows h
    exact Evaluator.terms_rowTerms fun t ht => ⟨(h t ht).1, m.known (h t ht)⟩

/-- Sums before comparisons, both from the right, and a second chain after a comma. -/
theorem evalTerms_sums_and_comparison :
    let m : Machine := { maxDepth := 1, patience := 0 }
    let c := Context.fresh
    let power : OpTree := .group (.binary .pow (.number 2.0) (.number 3.0))
    let sum : OpTree := .binary .sub (.number 9.0) (.binary .sub power (.number 1.0))
    let t : OpTree := .binary .less sum (.number 4.0)
    let ts : Group := [.literal (some 9.0), .op .sub,
      .group [.literal (some 2.0), .op .pow, .literal (some 3.0)], .op .sub, .literal (some 1.0),
      .op .less, .literal (some 4.0)]
    let x : Float := Float.sub 9.0 (Float.sub (Float.pow 2.0 3.0) 1.0)
    t.Ordered ∧ c.depth + t.nesting ≤ m.maxDepth ∧
    m.evalTerms ts c = .done (.number (if x < 4.0 then 1.0 else 0.0)) c ∧
    m.evalTerms (OpTree.rowTerms [t] [[t, sum]]) c = .done (.number (sum.value m.arithmetic)) c := by
  intro m c power sum t ts x
  have ht : t.Ordered := by simp [t, sum, power, OpTree.Ordered, OpTree.Below, ChainOp.level]
  have hs : sum.Ordered := ht.1
  have hdepth : c.depth + t.nesting ≤ m.maxDepth := by decide
  obtain ⟨-, -, hchain, hrows⟩ := evalTerms_precedence m c
  have hall : ∀ u ∈ [[t], [t, sum]].flatten, u.Ordered ∧ c.depth + u.nesting ≤ m.maxDepth := by
    intro u hu
    simp only [List.flatten_cons, List.flatten_nil, List.append_nil, List.cons_append,
      List.nil_append, List.mem_cons, List.not_mem_nil, or_false] at hu
    rcases hu with rfl | rfl | rfl
    · exact ⟨ht, hdepth⟩
    · exact ⟨ht, hdepth⟩
    · exact ⟨hs, by decide⟩
  refine ⟨ht, hdepth, ?_, hrows [t] [[t, sum]] hall⟩
  have hvalue := hchain t ht hdepth
  simpa [t, sum, power, OpTree.terms, OpTree.value, ChainOp.apply, ChainOp.op, m,
    Arithmetic.binary64] using hvalue

end Bracket
