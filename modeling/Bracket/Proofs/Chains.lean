import Bracket.Proofs.Ensures

/-!
# Bracket.Proofs.Chains

Chains of operands: one operand, or several with an operator between each two.

A reduction puts one operand in the place of two and their operator, so what is left of a chain is
a chain (`Chain.reduced`), no operator of it ever lacks an operand (`Chain.turn_ne_missing`), and
one operand is left of it in the end (`splicing_chain`). Which operands and operators they are
plays no part.
-/

namespace Bracket

/-- Operands with an operator between each two. A comma is no operator of a chain, but ends it. -/
inductive Chain : List Operand → Prop where
  | operand {x : Operand} : x.op? = none → Chain [x]
  | operator {x y : Operand} {op : Op} {rest : List Operand} :
      x.op? = none → y.op? = some op → op ≠ .comma → Chain rest → Chain (x :: y :: rest)

namespace Chain

variable {chunk : List Operand}

theorem not_comma (h : Chain chunk) : ∀ x ∈ chunk, x.op? ≠ some .comma := by
  induction h with
  | operand hx => simp [hx]
  | operator hx hy hop _ ih =>
    refine List.forall_mem_cons.mpr ⟨by simp [hx], List.forall_mem_cons.mpr ⟨?_, ih⟩⟩
    rw [hy]
    exact fun h => hop (Option.some.inj h)

/-- A chain without operators is one operand. -/
theorem single (h : Chain chunk) (hclear : Clear Tier.all chunk) :
    ∃ x, chunk = [x] ∧ x.op? = none := by
  cases h with
  | operand hx => exact ⟨_, rfl, hx⟩
  | @operator x y op rest hx hy hop htail =>
    have hy' : y.op? = none := by
      refine hclear.op?_eq_none (by simp) ?_
      rw [hy]
      exact fun h => hop (Option.some.inj h)
    rw [hy] at hy'
    cases hy'

/-- The operators of a chain have an operand on both sides. -/
theorem around (h : Chain chunk) : ∀ {a b : List Operand} {x : Operand}, chunk = a ++ x :: b →
    x.op?.isSome → ∃ a' left right b', a = a' ++ [left] ∧ b = right :: b' ∧ left.op? = none ∧
      right.op? = none := by
  induction h with
  | @operand y hy =>
    intro a b x hsplit hx
    obtain rfl : x = y := by
      rcases a with _ | ⟨_, a⟩
      · exact (List.cons.inj hsplit).1.symm
      · simp at hsplit
    rw [hy] at hx
    cases hx
  | @operator y z op rest hy hz _ htail ih =>
    intro a b x hsplit hx
    rcases a with _ | ⟨y', _ | ⟨z', a⟩⟩
    · cases hsplit
      rw [hy] at hx
      cases hx
    · cases hsplit
      cases htail with
      | operand hright => exact ⟨[], y, _, _, rfl, rfl, hy, hright⟩
      | operator hright => exact ⟨[], y, _, _, rfl, rfl, hy, hright⟩
    · cases hsplit
      obtain ⟨a', left, right, b', rfl, rfl, hleft, hright⟩ := ih rfl hx
      exact ⟨y :: z :: a', left, right, b', rfl, rfl, hleft, hright⟩

theorem replace_head {x x' : Operand} {rest : List Operand} (h : Chain (x :: rest))
    (hx' : x'.op? = none) : Chain (x' :: rest) := by
  cases h with
  | operand => exact .operand hx'
  | operator _ hy hop htail => exact .operator hx' hy hop htail

/-- What a reduction leaves of a chain is a chain. -/
theorem reduced (h : Chain chunk) (v : Option Float) :
    ∀ {a b : List Operand} {left x right : Operand}, chunk = a ++ left :: x :: right :: b →
      left.op? = none → Chain (a ++ .reduced v :: b) := by
  induction h with
  | operand =>
    intro a b left x right hsplit
    have hlength := congrArg List.length hsplit
    simp at hlength
    omega
  | @operator y z op rest hy hz hop htail ih =>
    intro a b left x right hsplit hleft
    rcases a with _ | ⟨y', _ | ⟨z', a⟩⟩
    · cases hsplit
      exact htail.replace_head rfl
    · -- the operator at the second place is no left neighbour
      cases hsplit
      rw [hz] at hleft
      cases hleft
    · cases hsplit
      exact .operator hy hz hop (ih rfl hleft)

theorem turn_ne_missing (h : Chain chunk) (err : RuntimeError) :
    turn chunk ≠ some (.missing err) := by
  intro hturn
  cases hnext : nextOperator? chunk with
  | none =>
    rw [turn, hnext] at hturn
    cases hturn
  | some found =>
    obtain ⟨index, op⟩ := found
    obtain ⟨-, -, tier, a, b, x, -, rfl, rfl, hx, -, -⟩ := split_of_nextOperator? hnext
    have hop : x.op?.isSome := by rw [(Tier.op?_eq_some_iff.mp hx).1]; rfl
    obtain ⟨a, left, right, b, rfl, rfl, hleft, hright⟩ := h.around rfl hop
    rw [turn_of_operator hnext] at hturn
    simp [hleft, hright] at hturn

end Chain

namespace Evaluator

variable {σ : Type} {e : Evaluator σ}

/-- One operand is left of a chain: the chain itself, or what the last reduction gave. -/
theorem splicing_chain {chunk : List Operand} (h : Chain chunk) :
    Eval.Yields (fun found => ∃ x, found = some [x] ∧ x.op? = none ∧
      (chunk = [x] ∨ ∃ v, x = .reduced v)) (e.splicing chunk) := by
  induction chunk using turns_induction with
  | finished chunk hturn hclear =>
    obtain ⟨x, rfl, hx⟩ := h.single hclear
    rw [splicing_of_clear hclear]
    exact .pure ⟨x, rfl, hx, .inl rfl⟩
  | missing chunk err hturn => exact absurd hturn (h.turn_ne_missing err)
  | reduce a b left x right op tier hturn hleft hx hright ih =>
    rw [splicing_reduce hturn]
    refine (Eval.Yields.any _).bind fun v _ s found t hfound => ?_
    obtain ⟨y, hy, hop, hsplit | hreduced⟩ := ih v (h.reduced v rfl hleft) s found t hfound
    · have hmem : Operand.reduced v ∈ [y] := hsplit ▸ by simp
      exact ⟨y, hy, hop, .inr ⟨v, (List.mem_singleton.mp hmem).symm⟩⟩
    · exact ⟨y, hy, hop, .inr hreduced⟩

end Evaluator

end Bracket
