import Bracket.Eval.Reduction

/-!
# Bracket.Proofs.Agree

Two computations on different states that go alike: they end in the same way, with the same value
or error, in related states. Some ends of the first one may be excused, and then the second one may
end in any way.

`Evaluator.terms_agree`: evaluating a list of terms goes alike if evaluating each term and assigning
to each name do, whatever the states are.
-/

namespace Bracket

variable {ε σ τ α β : Type}

/-- An end is excused by its error, or with no error if it is unfinished. -/
inductive Outcome.Agree (R : σ → τ → Prop) (excused : Option ε → Prop) :
    Outcome ε σ α → Outcome ε τ α → Prop where
  | done {a : α} {s : σ} {t : τ} : R s t → Agree R excused (.done a s) (.done a t)
  | failed {e : ε} {s : σ} {t : τ} : R s t → Agree R excused (.failed e s) (.failed e t)
  | unfinished : Agree R excused .unfinished .unfinished
  | excusedError {e : ε} {s : σ} {o : Outcome ε τ α} :
      excused (some e) → Agree R excused (.failed e s) o
  | excusedUnfinished {o : Outcome ε τ α} : excused none → Agree R excused .unfinished o

namespace Outcome.Agree

variable {R R' : σ → τ → Prop} {excused : Option ε → Prop}

theorem andThen {o : Outcome ε σ α} {o' : Outcome ε τ α} {f : α → σ → Outcome ε σ β}
    {f' : α → τ → Outcome ε τ β} (h : Agree R excused o o')
    (hf : ∀ a s t, R s t → Agree R excused (f a s) (f' a t)) :
    Agree R excused (o.andThen f) (o'.andThen f') := by
  cases h with
  | done hs => exact hf _ _ _ hs
  | failed hs => exact .failed hs
  | unfinished => exact .unfinished
  | excusedError he => exact .excusedError he
  | excusedUnfinished hn => exact .excusedUnfinished hn

theorem afterwards {o : Outcome ε σ α} {o' : Outcome ε τ α} {f : σ → σ} {f' : τ → τ}
    (h : Agree R excused o o') (hf : ∀ s t, R s t → R' (f s) (f' t)) :
    Agree R' excused (o.afterwards f) (o'.afterwards f') := by
  cases h with
  | done hs => exact .done (hf _ _ hs)
  | failed hs => exact .failed (hf _ _ hs)
  | unfinished => exact .unfinished
  | excusedError he => exact .excusedError he
  | excusedUnfinished hn => exact .excusedUnfinished hn

theorem onFailure {o : Outcome ε σ α} {o' : Outcome ε τ α} {f : σ → σ} {f' : τ → τ}
    (h : Agree R excused o o') (hf : ∀ s t, R s t → R (f s) (f' t)) :
    Agree R excused (o.onFailure f) (o'.onFailure f') := by
  cases h with
  | done hs => exact .done hs
  | failed hs => exact .failed (hf _ _ hs)
  | unfinished => exact .unfinished
  | excusedError he => exact .excusedError he
  | excusedUnfinished hn => exact .excusedUnfinished hn

end Outcome.Agree

/-- The computation ends, and with no error of the given kind. -/
def Outcome.Avoids {ε σ α : Type} (kind : ε → Bool) : Outcome ε σ α → Prop
  | .done _ _ => True
  | .failed e _ => kind e = false
  | .unfinished => False

/-- If nothing but errors of a kind is excused, an outcome without them is the other one too. -/
theorem Outcome.Agree.eq_of_avoids {excused : Option ε → Prop} {kind : ε → Bool}
    {o o' : Outcome ε σ α} (h : Outcome.Agree Eq excused o o')
    (hkind : ∀ e, excused (some e) → kind e = true) (ho : o.Avoids kind) : o' = o := by
  cases h with
  | done hd => rw [hd]
  | failed hd => rw [hd]
  | unfinished => rfl
  | excusedError he => exact absurd (hkind _ he) (Bool.eq_false_iff.mp ho)
  | excusedUnfinished => exact ho.elim

/-- From related states the two evaluations go alike. -/
def Eval.Agree (R : σ → τ → Prop) (excused : Option RuntimeError → Prop) (x : Eval σ α)
    (y : Eval τ α) : Prop :=
  ∀ s t, R s t → Outcome.Agree R excused (x s) (y t)

namespace Eval.Agree

variable {R : σ → τ → Prop} {excused : Option RuntimeError → Prop}

theorem pure (a : α) : Eval.Agree R excused (Pure.pure a) (Pure.pure a) :=
  fun _ _ h => .done h

theorem fail (e : RuntimeError) :
    Eval.Agree R excused (Eval.fail e : Eval σ α) (Eval.fail e) := fun _ _ h => .failed h

theorem ofExcept (x : Except RuntimeError α) :
    Eval.Agree R excused (Eval.ofExcept x) (Eval.ofExcept x) := by
  cases x with
  | ok a => exact pure a
  | error e => exact fail e

theorem modify {f : σ → σ} {f' : τ → τ} (h : ∀ s t, R s t → R (f s) (f' t)) :
    Eval.Agree R excused (Eval.modify f) (Eval.modify f') := fun _ _ hs => .done (h _ _ hs)

theorem bind {x : Eval σ α} {y : Eval τ α} {f : α → Eval σ β} {f' : α → Eval τ β}
    (h : Eval.Agree R excused x y) (hf : ∀ a, Eval.Agree R excused (f a) (f' a)) :
    Eval.Agree R excused (x >>= f) (y >>= f') :=
  fun s t hs => (h s t hs).andThen fun a => hf a

end Eval.Agree

/-! ## Lists of terms -/

structure Evaluator.Agree (R : σ → τ → Prop) (excused : Option RuntimeError → Prop)
    (e : Evaluator σ) (e' : Evaluator τ) : Prop where
  term : ∀ t, Eval.Agree R excused (e.term t) (e'.term t)
  assign : ∀ name v s t, R s t → R (e.assign name v s) (e'.assign name v t)
  arithmetic : e.arithmetic = e'.arithmetic

namespace Evaluator

variable {R : σ → τ → Prop} {excused : Option RuntimeError → Prop}
  {e : Evaluator σ} {e' : Evaluator τ}

theorem operand_agree (h : Agree R excused e e') (x : Operand) :
    Eval.Agree R excused (e.operand x) (e'.operand x) := by
  cases x with
  | source t => exact h.term t
  | reduced v => exact .pure _

theorem number_agree (h : Agree R excused e e') (op : Op) (x : Operand) :
    Eval.Agree R excused (e.number op x) (e'.number op x) :=
  .bind (operand_agree h x) fun v => .ofExcept (v.asNumber op)

theorem assignment_agree (h : Agree R excused e e') (target value : Operand) :
    Eval.Agree R excused (e.assignment target value) (e'.assignment target value) := by
  unfold assignment
  split
  · refine .bind (operand_agree h value) fun v => ?_
    exact .bind (.modify (h.assign _ v)) fun _ => .pure _
  · exact .fail _

theorem binary_agree (h : Agree R excused e e') (op : Op) (left right : Operand) :
    Eval.Agree R excused (e.binary op left right) (e'.binary op left right) := by
  refine .bind (number_agree h op left) fun x => ?_
  refine .bind (number_agree h op right) fun y => ?_
  rw [h.arithmetic]
  cases e'.arithmetic.result? op x y with
  | some z => exact .pure _
  | none => exact .fail _

theorem reduce_agree (h : Agree R excused e e') (op : Op) (left right : Operand) :
    Eval.Agree R excused (e.reduce op left right) (e'.reduce op left right) := by
  unfold reduce
  split
  · exact assignment_agree h left right
  · exact binary_agree h op left right

theorem sweep_agree (h : Agree R excused e e') (tier : Tier) (before passed : List Operand) :
    Eval.Agree R excused (e.sweep tier before passed) (e'.sweep tier before passed) := by
  induction before, passed using sweep.induct tier with
  | case1 passed => exact .pure _
  | case2 passed x before hx ih =>
    simp only [sweep, hx]
    exact ih
  | case3 passed x op hx =>
    simp only [sweep, hx]
    exact .fail _
  | case4 passed x op hx left before hl =>
    simp only [sweep, hx, if_pos hl]
    exact .fail _
  | case5 x op hx left before hl =>
    simp only [sweep, hx, if_neg hl]
    exact .fail _
  | case6 x op hx left before hl right passed hr =>
    simp only [sweep, hx, if_neg hl, if_pos hr]
    exact .fail _
  | case7 x op hx left before hl right passed hr ih =>
    simp only [sweep, hx, if_neg hl, if_neg hr]
    exact .bind (reduce_agree h op left right) ih

theorem reduceTiers_agree (h : Agree R excused e e') (tiers : List Tier) (chunk : List Operand) :
    Eval.Agree R excused (e.reduceTiers tiers chunk) (e'.reduceTiers tiers chunk) := by
  induction tiers generalizing chunk with
  | nil => exact .pure _
  | cons tier looser ih => exact .bind (sweep_agree h tier _ _) ih

theorem reduceChunks_agree (h : Agree R excused e e') (others : List (List Operand)) :
    Eval.Agree R excused (e.reduceChunks others) (e'.reduceChunks others) := by
  induction others with
  | nil => exact .pure _
  | cons chunk others ih =>
    refine .bind (reduceTiers_agree h Tier.all chunk) fun left => ?_
    exact .bind ih fun rest => .pure _

theorem lastOf_agree (h : Agree R excused e e') (operands : List Operand) (last : Value) :
    Eval.Agree R excused (e.lastOf last operands) (e'.lastOf last operands) := by
  induction operands generalizing last with
  | nil => exact .pure _
  | cons x operands ih => exact .bind (operand_agree h x) ih

theorem terms_agree (h : Agree R excused e e') (g : Group) :
    Eval.Agree R excused (e.terms g) (e'.terms g) :=
  .bind (reduceChunks_agree h (chunks g)) (lastOf_agree h · .null)

end Evaluator

end Bracket
