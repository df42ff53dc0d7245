import Bracket.Proofs.Chunks
import Bracket.Proofs.Splicing

/-!
# Bracket.Proofs.Ensures

What an evaluation ensures, however it ends: one condition on results, one on errors, and whether it
may be unfinished.

`Evaluator.terms_keeps`: evaluating a list of terms keeps a property of states if evaluating each of
its operands does and assigning does. The operators of the list are not among its operands; after
the reduction none of them is left (`Evaluator.op?_of_reduceChunks`).
-/

namespace Bracket

variable {ε σ α β : Type}

def Outcome.Ensures (done : α → σ → Prop) (failed : ε → σ → Prop) (unfinished : Prop) :
    Outcome ε σ α → Prop
  | .done a s => done a s
  | .failed e s => failed e s
  | .unfinished => unfinished

namespace Outcome.Ensures

variable {done done' : α → σ → Prop} {failed failed' : ε → σ → Prop} {unfinished : Prop}
  {o : Outcome ε σ α}

theorem imp (h : o.Ensures done failed unfinished) (hdone : ∀ a s, done a s → done' a s)
    (hfailed : ∀ e s, failed e s → failed' e s) : o.Ensures done' failed' unfinished := by
  cases o with
  | done a s => exact hdone a s h
  | failed e s => exact hfailed e s h
  | unfinished => exact h

theorem andThen {next : β → σ → Prop} {f : α → σ → Outcome ε σ β}
    (h : o.Ensures done failed unfinished)
    (hf : ∀ a s, done a s → (f a s).Ensures next failed unfinished) :
    (o.andThen f).Ensures next failed unfinished := by
  cases o with
  | done a s => exact hf a s h
  | failed e s => exact h
  | unfinished => exact h

theorem afterwards {f : σ → σ} (h : o.Ensures done failed unfinished)
    (hdone : ∀ a s, done a s → done' a (f s)) (hfailed : ∀ e s, failed e s → failed' e (f s)) :
    (o.afterwards f).Ensures done' failed' unfinished := by
  cases o with
  | done a s => exact hdone a s h
  | failed e s => exact hfailed e s h
  | unfinished => exact h

theorem onFailure {f : σ → σ} (h : o.Ensures done failed unfinished)
    (hfailed : ∀ e s, failed e s → failed' e (f s)) :
    (o.onFailure f).Ensures done failed' unfinished := by
  cases o with
  | done a s => exact h
  | failed e s => exact hfailed e s h
  | unfinished => exact h

end Outcome.Ensures

/-- From the states with the property, the evaluation ends in states with the property. -/
def Eval.Keeps (P : σ → Prop) (failed : RuntimeError → σ → Prop) (unfinished : Prop)
    (x : Eval σ α) : Prop :=
  ∀ s, P s → (x s).Ensures (fun _ => P) failed unfinished

namespace Eval.Keeps

variable {P : σ → Prop} {failed : RuntimeError → σ → Prop} {unfinished : Prop}

theorem pure (a : α) : Eval.Keeps P failed unfinished (Pure.pure a : Eval σ α) := fun _ h => h

theorem fail {e : RuntimeError} (h : ∀ s, P s → failed e s) :
    Eval.Keeps P failed unfinished (Eval.fail e : Eval σ α) := h

theorem bind {x : Eval σ α} {f : α → Eval σ β} (h : Eval.Keeps P failed unfinished x)
    (hf : ∀ a, Eval.Keeps P failed unfinished (f a)) :
    Eval.Keeps P failed unfinished (x >>= f) :=
  fun s hs => (h s hs).andThen fun a => hf a

end Eval.Keeps

/-- Whenever the evaluation succeeds, its result has the property. -/
def Eval.Yields (P : α → Prop) (x : Eval σ α) : Prop := ∀ s a t, x s = .done a t → P a

namespace Eval.Yields

variable {P : α → Prop} {Q : β → Prop}

theorem pure {a : α} (h : P a) : Eval.Yields P (Pure.pure a : Eval σ α) := by
  rintro s _ t ⟨⟩
  exact h

theorem fail (e : RuntimeError) : Eval.Yields P (Eval.fail e : Eval σ α) := by
  rintro s a t ⟨⟩

theorem bind {x : Eval σ α} {f : α → Eval σ β} (h : Eval.Yields P x)
    (hf : ∀ a, P a → Eval.Yields Q (f a)) : Eval.Yields Q (x >>= f) := by
  intro s b u hb
  rw [Eval.bind_apply] at hb
  cases hx : x s with
  | done a t =>
    rw [hx] at hb
    exact hf a (h s a t hx) t b u hb
  | failed e t =>
    rw [hx] at hb
    cases hb
  | unfinished =>
    rw [hx] at hb
    cases hb

theorem any (x : Eval σ α) : Eval.Yields (fun _ => True) x := fun _ _ _ _ => trivial

/-- What goes on from a result matters only for the results there are. -/
theorem bind_congr {x : Eval σ α} {f g : α → Eval σ β} (h : Eval.Yields P x)
    (hfg : ∀ a, P a → f a = g a) : x >>= f = x >>= g := by
  funext s
  rw [Eval.bind_apply, Eval.bind_apply]
  cases hx : x s with
  | done a t => exact congrFun (hfg a (h s a t hx)) t
  | failed e t => rfl
  | unfinished => rfl

end Eval.Yields

/-! ## Operands -/

/-- The term is evaluated, or there is nothing to evaluate. -/
def Operand.Runs (runs : Term → Prop) : Operand → Prop
  | .source t => runs t
  | .reduced _ => True

/-- What lists of terms need to keep a property: the terms that are evaluated do, assigning does,
and an operator may fail that has not the operands it needs. -/
structure Evaluator.Keeps (P : σ → Prop) (failed : RuntimeError → σ → Prop) (unfinished : Prop)
    (runs : Term → Prop) (e : Evaluator σ) : Prop where
  term : ∀ t, runs t → Eval.Keeps P failed unfinished (e.term t)
  assign : ∀ name v s, P s → P (e.assign name v s)
  refused : ∀ err : RuntimeError, err.ofOperands → ∀ s, P s → failed err s

theorem Op.exists_result {op : Op} {tier : Tier} (htier : op.tier? = some tier)
    (hassign : op ≠ .assign) (a : Arithmetic) (x y : Float) : ∃ z, a.result? op x y = some z := by
  cases op with
  | assign => exact absurd rfl hassign
  | comma => cases htier
  | _ => exact ⟨_, rfl⟩

namespace Evaluator

variable {P : σ → Prop} {failed : RuntimeError → σ → Prop} {unfinished : Prop}
  {runs : Term → Prop} {e : Evaluator σ}

theorem operand_keeps (h : e.Keeps P failed unfinished runs) {x : Operand} (hx : x.Runs runs) :
    Eval.Keeps P failed unfinished (e.operand x) := by
  cases x with
  | source t => exact h.term t hx
  | reduced v => exact .pure _

theorem number_keeps (h : e.Keeps P failed unfinished runs) (op : Op) {x : Operand}
    (hx : x.Runs runs) : Eval.Keeps P failed unfinished (e.number op x) := by
  refine .bind (operand_keeps h hx) fun v => ?_
  cases v with
  | number x => exact .pure x
  | _ => exact .fail (h.refused _ rfl)

theorem reduce_keeps (h : e.Keeps P failed unfinished runs) {op : Op} {tier : Tier}
    (htier : op.tier? = some tier) {left right : Operand} (hleft : left.Runs runs)
    (hright : right.Runs runs) : Eval.Keeps P failed unfinished (e.reduce op left right) := by
  unfold reduce
  split
  · unfold assignment
    split
    · refine .bind (operand_keeps h hright) fun v => ?_
      exact fun s hs => h.assign _ v s hs
    · exact .fail (h.refused _ rfl)
  · rename_i hassign
    refine .bind (number_keeps h op hleft) fun x => ?_
    refine .bind (number_keeps h op hright) fun y => ?_
    obtain ⟨z, hz⟩ := Op.exists_result htier hassign e.arithmetic x y
    rw [hz]
    exact .pure (some z)

/-! ## Chunks -/

/-- No operator of any tier is left, and there is nothing new but results. -/
structure Remains (chunk left : List Operand) : Prop where
  clear : Clear Tier.all left
  mem : ∀ x ∈ left, x ∈ chunk ∨ ∃ v, x = .reduced v

theorem splicing_ensures (h : e.Keeps P failed unfinished runs) (chunk : List Operand) :
    (∀ x ∈ chunk, x.op? = none → x.Runs runs) → ∀ s, P s → (e.splicing chunk s).Ensures
      (fun found s => P s ∧ ∃ left, found = some left ∧ Remains chunk left) failed unfinished := by
  induction chunk using turns_induction with
  | finished chunk hturn hclear =>
    intro _ s hs
    rw [splicing_of_clear hclear]
    exact ⟨hs, chunk, rfl, hclear, fun x hx => .inl hx⟩
  | missing chunk err hturn herr =>
    intro _ s hs
    rw [splicing_missing hturn]
    exact h.refused err herr s hs
  | reduce a b left x right op tier hturn hleft hx hright ih =>
    intro hruns s hs
    have hleft' := hruns left (by simp) hleft
    have hright' := hruns right (by simp) hright
    have htier := (Tier.op?_eq_some_iff.mp hx).2
    rw [splicing_reduce hturn]
    refine (reduce_keeps h htier hleft' hright' s hs).andThen fun v s hs => ?_
    have hrest : ∀ y ∈ a ++ .reduced v :: b, y.op? = none → y.Runs runs := by
      intro y hy hop
      rcases List.mem_append.mp hy with hy | hy
      · exact hruns y (by simp [hy]) hop
      rcases List.mem_cons.mp hy with rfl | hy
      · trivial
      · exact hruns y (by simp [hy]) hop
    refine (ih v hrest s hs).imp ?_ fun _ _ he => he
    rintro _ s ⟨hs, left', rfl, hclear, hmem⟩
    refine ⟨hs, left', rfl, hclear, fun y hy => ?_⟩
    rcases hmem y hy with hy | hy
    · simp only [List.mem_append, List.mem_cons] at hy ⊢
      rcases hy with hy | rfl | hy
      · exact .inl (.inl hy)
      · exact .inr ⟨v, rfl⟩
      · exact .inl (.inr (.inr (.inr (.inr hy))))
    · exact .inr hy

/-- What the turns ensure the sweeps do. -/
theorem ensures_reduceChunk {done : Option (List Operand) → σ → Prop}
    {failed : RuntimeError → σ → Prop} {chunk : List Operand} {s : σ}
    (h : (e.splicing chunk s).Ensures done failed unfinished) :
    (e.reduceChunk chunk s).Ensures (fun left => done (some left)) failed unfinished := by
  rw [splicing_eq, Eval.bind_apply] at h
  cases hchunk : e.reduceChunk chunk s <;> rw [hchunk] at h <;> exact h

theorem yields_reduceChunk {P : Option (List Operand) → Prop} {chunk : List Operand}
    (h : Eval.Yields P (e.splicing chunk)) :
    Eval.Yields (fun left => P (some left)) (e.reduceChunk chunk) := by
  intro s left t hleft
  refine h s (some left) t ?_
  rw [splicing_eq, Eval.bind_apply, hleft]
  rfl

theorem reduceChunk_ensures (h : e.Keeps P failed unfinished runs) {chunk : List Operand}
    (hruns : ∀ x ∈ chunk, x.op? = none → x.Runs runs) {s : σ} (hs : P s) :
    (e.reduceChunk chunk s).Ensures (fun left s => P s ∧ Remains chunk left) failed
      unfinished := by
  refine (ensures_reduceChunk (splicing_ensures h chunk hruns s hs)).imp ?_ fun _ _ he => he
  rintro left s ⟨hs, _, hleft, hremains⟩
  cases hleft
  exact ⟨hs, hremains⟩

theorem Remains.op? {chunk left : List Operand} (h : Remains chunk left)
    (hcomma : ∀ x ∈ chunk, x.op? ≠ some .comma) {x : Operand} (hx : x ∈ left) : x.op? = none := by
  rcases h.mem x hx with hmem | ⟨v, rfl⟩
  · exact h.clear.op?_eq_none hx (hcomma x hmem)
  · rfl

/-! ## Lists of terms -/

theorem reduceChunks_ensures (h : e.Keeps P failed unfinished runs)
    (others : List (List Operand))
    (hothers : ∀ chunk ∈ others, ∀ x ∈ chunk,
      x.op? ≠ some .comma ∧ (x.op? = none → x.Runs runs)) :
    ∀ s, P s → (e.reduceChunks others s).Ensures
      (fun left s => P s ∧ ∀ x ∈ left, x.op? = none ∧ x.Runs runs) failed unfinished := by
  induction others with
  | nil => exact fun s hs => ⟨hs, fun x hx => absurd hx List.not_mem_nil⟩
  | cons chunk others ih =>
    intro s hs
    obtain ⟨hchunk, hothers⟩ := List.forall_mem_cons.mp hothers
    refine (reduceChunk_ensures h (fun x hx => (hchunk x hx).2) hs).andThen ?_
    rintro left s ⟨hs, hremains⟩
    refine (ih hothers s hs).andThen ?_
    rintro rest s ⟨hs, hrest⟩
    refine ⟨hs, List.forall_mem_append.mpr ⟨fun x hx => ?_, hrest⟩⟩
    have hop := hremains.op? (fun y hy => (hchunk y hy).1) hx
    rcases hremains.mem x hx with hmem | ⟨v, rfl⟩
    · exact ⟨hop, (hchunk x hmem).2 hop⟩
    · exact ⟨hop, trivial⟩

theorem lastOf_keeps (h : e.Keeps P failed unfinished runs) (operands : List Operand)
    (hruns : ∀ x ∈ operands, x.Runs runs) :
    ∀ last, Eval.Keeps P failed unfinished (e.lastOf last operands) := by
  induction operands with
  | nil => exact fun last => .pure last
  | cons x operands ih =>
    intro last
    obtain ⟨hx, hoperands⟩ := List.forall_mem_cons.mp hruns
    exact .bind (operand_keeps h hx) (ih hoperands)

theorem reduceChunks_chunks_ensures (g : Group)
    (h : e.Keeps P failed unfinished fun t => t ∈ g ∧ t.op? = none) {s : σ} (hs : P s) :
    (e.reduceChunks (chunks g) s).Ensures
      (fun left s => P s ∧ ∀ x ∈ left, x.op? = none ∧ x.Runs fun t => t ∈ g ∧ t.op? = none)
      failed unfinished := by
  refine reduceChunks_ensures h (chunks g) ?_ s hs
  intro chunk hchunk x hx
  obtain ⟨t, ht, rfl, hcomma⟩ := mem_chunks hchunk hx
  exact ⟨hcomma, fun hop => ⟨ht, hop⟩⟩

theorem terms_keeps (g : Group)
    (h : e.Keeps P failed unfinished fun t => t ∈ g ∧ t.op? = none) :
    Eval.Keeps P failed unfinished (e.terms g) := by
  intro s hs
  refine (reduceChunks_chunks_ensures g h hs).andThen ?_
  rintro left s ⟨hs, hleft⟩
  exact lastOf_keeps h left (fun x hx => (hleft x hx).2) .null s hs

theorem op?_of_reduceChunks {g : Group} {s s' : σ} {left : List Operand}
    (h : e.reduceChunks (chunks g) s = .done left s') : ∀ x ∈ left, x.op? = none := by
  have hkeeps : e.Keeps (fun _ => True) (fun _ _ => True) True fun t => t ∈ g ∧ t.op? = none := by
    refine ⟨fun t _ s _ => ?_, fun _ _ _ _ => trivial, fun _ _ _ _ => trivial⟩
    cases e.term t s <;> trivial
  have hensures := reduceChunks_chunks_ensures g hkeeps (s := s) trivial
  rw [h] at hensures
  exact fun x hx => (hensures.2 x hx).1

end Evaluator

end Bracket
