import Bracket.Eval.Reduction

/-!
# Bracket.Proofs.Splicing

The reduction of a chunk, told by index. Each turn looks for the last operator of the tightest tier
that is left in the chunk, has its neighbours checked, and puts the result in the place of the
three. A sweep goes over a chunk once for each tier instead of searching it again; both do the same
(`splicing_eq`).

The turns ask for elements at computed indices. `splicing` gives `none` where an index is out of
range, so that the same equation says that none ever is.

* `turn`: what is done next with a chunk.
* `Turns`, `turn_turns`: everything a turn can do.
* `turns_induction`: induction on the turns that a chunk takes, for facts about its reduction.
-/

namespace Bracket

/-! ## Lists -/

/-- Replaces the element at an index; nothing if there is none. -/
def replaceAt? {α : Type} (l : List α) (index : Nat) (x : α) : Option (List α) :=
  if index < l.length then some (l.set index x) else none

def removeAt? {α : Type} (l : List α) (index : Nat) : Option (List α) :=
  if index < l.length then some (l.eraseIdx index) else none

/-- Puts an element in the place of the one at the index and of its two neighbours. -/
def splice? {α : Type} (l : List α) (index : Nat) (x : α) : Option (List α) := do
  let l ← replaceAt? l (index - 1) x
  let l ← removeAt? l (index + 1)
  removeAt? l index

theorem splice?_eq {α : Type} (a b : List α) (left x right y : α) :
    splice? (a ++ left :: x :: right :: b) (a.length + 1) y = some (a ++ y :: b) := by
  have hright : (a ++ y :: x :: right :: b).eraseIdx (a.length + 1 + 1) = a ++ y :: x :: b := by
    rw [List.eraseIdx_append_of_length_le (by omega)]
    simp [Nat.add_assoc]
  have hindex : (a ++ y :: x :: b).eraseIdx (a.length + 1) = a ++ y :: b := by
    rw [List.eraseIdx_append_of_length_le (by omega)]
    simp
  have hroom : a.length + 1 + 1 < a.length + (b.length + 1 + 1 + 1) := by omega
  simp [splice?, replaceAt?, removeAt?, hright, hindex, hroom]

theorem length_lt_of_splice? {α : Type} {l l' : List α} {index : Nat} {x : α}
    (h : splice? l index x = some l') : l'.length < l.length := by
  simp only [splice?, replaceAt?, removeAt?, Option.bind_eq_bind, Option.bind_eq_some_iff,
    Option.ite_none_right_eq_some, Option.some.injEq] at h
  obtain ⟨l₁, ⟨-, rfl⟩, l₂, ⟨hright, rfl⟩, hindex, rfl⟩ := h
  rw [List.length_eraseIdx_of_lt hindex, List.length_eraseIdx_of_lt hright, List.length_set]
  rw [List.length_eraseIdx_of_lt hright] at hindex
  rw [List.length_set] at hright hindex
  omega

/-! ## Turns -/

/-- The last operator of the tier in the chunk, with its index. -/
def Tier.last? (tier : Tier) (chunk : List Operand) : Option (Nat × Op) :=
  chunk.zipIdx.reverse.findSome? fun p => (tier.op? p.1).map fun op => (p.2, op)

/-- The operator that is reduced next: the last one of the tightest tier. -/
def nextOperator? (chunk : List Operand) : Option (Nat × Op) :=
  Tier.all.findSome? fun tier => tier.last? chunk

inductive Turn where
  | finished
  | missing (e : RuntimeError)
  | reduce (op : Op) (index : Nat)

/-- What is done next with a chunk; `none` if an index is out of range. An operator at the end of
the chunk has no right neighbour, which is asked for and may be missing. -/
def turn (chunk : List Operand) : Option Turn :=
  match nextOperator? chunk with
  | none => some .finished
  | some (index, op) =>
    if index = 0 then some (.missing (.missingLeftOperand op))
    else
      match chunk[index - 1]? with
      | none => none
      | some left =>
        if left.op?.isSome then some (.missing (.missingLeftOperand op))
        else
          match chunk[index + 1]? with
          | none => some (.missing (.missingRightOperand op))
          | some right =>
            if right.op?.isSome then some (.missing (.missingRightOperand op))
            else some (.reduce op index)

namespace Evaluator

variable {σ : Type}

/-- Turn after turn, until no operator is left. The value is `none` if an index is out of range. -/
def splicing (e : Evaluator σ) (chunk : List Operand) : Eval σ (Option (List Operand)) :=
  match turn chunk with
  | none => pure none
  | some .finished => pure (some chunk)
  | some (.missing err) => Eval.fail err
  | some (.reduce op index) =>
    match chunk[index - 1]?, chunk[index + 1]? with
    | some left, some right => do
      let v ← e.reduce op left right
      match _h : splice? chunk index (.reduced v) with
      | some rest => splicing e rest
      | none => pure none
    | _, _ => pure none
termination_by chunk.length
decreasing_by exact length_lt_of_splice? _h

end Evaluator

/-! ## The next operator -/

/-- No operator of the tiers is in the chunk. -/
def Clear (tiers : List Tier) (chunk : List Operand) : Prop :=
  ∀ x ∈ chunk, ∀ tier ∈ tiers, tier.op? x = none

theorem Clear.append {tiers : List Tier} {a b : List Operand} :
    Clear tiers (a ++ b) ↔ Clear tiers a ∧ Clear tiers b := List.forall_mem_append

theorem Clear.cons {tiers : List Tier} {x : Operand} {b : List Operand} :
    Clear tiers (x :: b) ↔ (∀ tier ∈ tiers, tier.op? x = none) ∧ Clear tiers b :=
  List.forall_mem_cons

theorem Clear.nil {tiers : List Tier} : Clear tiers [] := fun _ hx => absurd hx List.not_mem_nil

theorem Clear.single {tiers : List Tier} {x : Operand} (hx : x.op? = none) : Clear tiers [x] := by
  refine Clear.cons.mpr ⟨fun tier _ => ?_, Clear.nil⟩
  rw [Tier.op?, hx]

theorem Tier.op?_eq_some_iff {tier : Tier} {x : Operand} {op : Op} :
    tier.op? x = some op ↔ x.op? = some op ∧ op.tier? = some tier := by
  unfold Tier.op?
  cases x.op? with
  | none => simp
  | some o =>
    by_cases h : o.tier? = some tier
    · simp only [h, if_true, Option.some.injEq]
      exact ⟨fun ho => ⟨ho, ho ▸ h⟩, And.left⟩
    · simp only [h, if_false, reduceCtorEq, Option.some.injEq, false_iff]
      rintro ⟨rfl, ho⟩
      exact h ho

/-- The comma is the only operator that is in no tier. -/
theorem Clear.op?_eq_none {chunk : List Operand} (h : Clear Tier.all chunk) {x : Operand}
    (hx : x ∈ chunk) (hcomma : x.op? ≠ some .comma) : x.op? = none := by
  cases hop : x.op? with
  | none => rfl
  | some op =>
    obtain ⟨tier, htier⟩ : ∃ tier, op.tier? = some tier := by
      cases op with
      | comma => exact absurd hop hcomma
      | _ => exact ⟨_, rfl⟩
    have hall : tier ∈ Tier.all := by cases tier <;> decide
    have hnone := h x hx tier hall
    rw [Tier.op?_eq_some_iff.mpr ⟨hop, htier⟩] at hnone
    cases hnone

theorem Tier.last?_of_clear {tier : Tier} {chunk : List Operand}
    (h : ∀ x ∈ chunk, tier.op? x = none) : tier.last? chunk = none := by
  rw [Tier.last?, List.findSome?_eq_none_iff]
  rintro ⟨x, i⟩ hx
  rw [h x (List.fst_mem_of_mem_zipIdx (List.mem_reverse.mp hx))]
  rfl

theorem Tier.last?_split {tier : Tier} {a b : List Operand} {x : Operand} {op : Op}
    (hx : tier.op? x = some op) (hb : ∀ y ∈ b, tier.op? y = none) :
    tier.last? (a ++ x :: b) = some (a.length, op) := by
  have hright : (b.zipIdx (a.length + 1)).reverse.findSome?
      (fun p => (tier.op? p.1).map fun op => (p.2, op)) = none := by
    rw [List.findSome?_eq_none_iff]
    rintro ⟨y, i⟩ hy
    rw [hb y (List.fst_mem_of_mem_zipIdx (List.mem_reverse.mp hy))]
    rfl
  simp [Tier.last?, List.zipIdx_append, List.zipIdx_cons, List.findSome?_append, hright, hx]

theorem nextOperator?_of_clear {chunk : List Operand} (h : Clear Tier.all chunk) :
    nextOperator? chunk = none := by
  rw [nextOperator?, List.findSome?_eq_none_iff]
  exact fun tier htier => Tier.last?_of_clear fun x hx => h x hx tier htier

/-- Nothing tighter is in the chunk, and nothing of the tier to the right of the operator. -/
theorem nextOperator?_split {tighter looser : List Tier} {tier : Tier}
    (htiers : Tier.all = tighter ++ tier :: looser) {a b : List Operand} {x : Operand} {op : Op}
    (htighter : Clear tighter (a ++ x :: b)) (hx : tier.op? x = some op) (hb : Clear [tier] b) :
    nextOperator? (a ++ x :: b) = some (a.length, op) := by
  have hnone : tighter.findSome? (fun tier => tier.last? (a ++ x :: b)) = none := by
    rw [List.findSome?_eq_none_iff]
    exact fun tier' htier' => Tier.last?_of_clear fun y hy => htighter y hy tier' htier'
  have hlast := Tier.last?_split (a := a) hx fun y hy => hb y hy tier List.mem_cons_self
  rw [nextOperator?, htiers, List.findSome?_append, hnone, List.findSome?_cons, hlast]
  rfl

theorem turn_of_clear {chunk : List Operand} (h : Clear Tier.all chunk) :
    turn chunk = some .finished := by
  rw [turn, nextOperator?_of_clear h]

/-- The neighbours decide about the operator whose turn it is. -/
theorem turn_of_operator {a b : List Operand} {x : Operand} {op : Op}
    (h : nextOperator? (a ++ x :: b) = some (a.length, op)) :
    turn (a ++ x :: b) =
      if a.getLast?.all (·.op?.isSome) then some (.missing (.missingLeftOperand op))
      else if b.head?.all (·.op?.isSome) then some (.missing (.missingRightOperand op))
      else some (.reduce op a.length) := by
  rw [turn, h]
  have hright : (a ++ x :: b)[a.length + 1]? = b.head? := by
    cases b <;> simp
  rcases List.eq_nil_or_concat a with rfl | ⟨a, left, rfl⟩
  · simp
  · have hleft : (a.concat left ++ x :: b)[(a.concat left).length - 1]? = some left := by simp
    simp only [hleft, hright]
    cases b <;> simp

/-- Between two operands an operator is reduced. -/
theorem turn_between {a b : List Operand} {left x right : Operand} {op : Op}
    (h : nextOperator? (a ++ left :: x :: right :: b) = some (a.length + 1, op))
    (hleft : left.op? = none) (hright : right.op? = none) :
    turn (a ++ left :: x :: right :: b) = some (.reduce op (a.length + 1)) := by
  have hsplit : a ++ left :: x :: right :: b = (a ++ [left]) ++ x :: right :: b := by simp
  have hindex : a.length + 1 = (a ++ [left]).length := by simp
  rw [hsplit, hindex] at h ⊢
  rw [turn_of_operator h]
  simp [hleft, hright]

/-- The last operator of a tier, if there is one, with nothing of the tier to its right. -/
theorem Tier.clear_or_last (tier : Tier) (chunk : List Operand) :
    (∀ x ∈ chunk, tier.op? x = none) ∨
      ∃ a x b op, chunk = a ++ x :: b ∧ tier.op? x = some op ∧ ∀ y ∈ b, tier.op? y = none := by
  induction chunk with
  | nil => exact .inl fun x hx => absurd hx List.not_mem_nil
  | cons z chunk ih =>
    rcases ih with hclear | ⟨a, x, b, op, rfl, hx, hb⟩
    · cases hz : tier.op? z with
      | none => exact .inl (List.forall_mem_cons.mpr ⟨hz, hclear⟩)
      | some op => exact .inr ⟨[], z, chunk, op, rfl, hz, hclear⟩
    · exact .inr ⟨z :: a, x, b, op, rfl, hx, hb⟩

theorem Tier.clear_of_last? {tier : Tier} {chunk : List Operand} (h : tier.last? chunk = none) :
    ∀ x ∈ chunk, tier.op? x = none := by
  rcases tier.clear_or_last chunk with hclear | ⟨a, x, b, op, rfl, hx, hb⟩
  · exact hclear
  · rw [Tier.last?_split hx hb] at h
    cases h

theorem clear_of_nextOperator? {chunk : List Operand} (h : nextOperator? chunk = none) :
    Clear Tier.all chunk := by
  intro x hx tier htier
  rw [nextOperator?, List.findSome?_eq_none_iff] at h
  exact Tier.clear_of_last? (h tier htier) x hx

/-- Around the next operator: nothing tighter in the chunk, nothing of its tier to its right. -/
theorem split_of_nextOperator? {chunk : List Operand} {index : Nat} {op : Op}
    (h : nextOperator? chunk = some (index, op)) :
    ∃ (tighter looser : List Tier) (tier : Tier) (a b : List Operand) (x : Operand),
      Tier.all = tighter ++ tier :: looser ∧ chunk = a ++ x :: b ∧ a.length = index ∧
      tier.op? x = some op ∧ Clear tighter chunk ∧ Clear [tier] b := by
  obtain ⟨tighter, tier, looser, htiers, hlast, hnone⟩ := List.findSome?_eq_some_iff.mp h
  rcases tier.clear_or_last chunk with hclear | ⟨a, x, b, o, rfl, hx, hb⟩
  · rw [Tier.last?_of_clear hclear] at hlast
    cases hlast
  · rw [Tier.last?_split hx hb] at hlast
    cases hlast
    refine ⟨tighter, looser, tier, a, b, x, htiers, rfl, rfl, hx, ?_, ?_⟩
    · exact fun y hy tier' htier' => Tier.clear_of_last? (hnone tier' htier') y hy
    · intro y hy tier' htier'
      rw [List.mem_singleton.mp htier']
      exact hb y hy

theorem nextOperator?_of_turn {chunk : List Operand} {op : Op} {index : Nat}
    (h : turn chunk = some (.reduce op index)) : nextOperator? chunk = some (index, op) := by
  cases hnext : nextOperator? chunk with
  | none =>
    rw [turn, hnext] at h
    cases h
  | some found =>
    obtain ⟨i, o⟩ := found
    obtain ⟨-, -, -, a, b, x, -, rfl, rfl, -, -, -⟩ := split_of_nextOperator? hnext
    rw [turn_of_operator hnext] at h
    split at h
    · cases h
    · split at h
      · cases h
      · cases h
        rfl

/-- The errors of an operator that has not the operands it needs. -/
def RuntimeError.ofOperands : RuntimeError → Bool
  | .missingLeftOperand _ | .missingRightOperand _ | .assignmentToNonIdent
  | .expectedNumber .. => true
  | _ => false

/-- Everything a turn can do. -/
inductive Turns : List Operand → Turn → Prop where
  | finished {chunk : List Operand} : Clear Tier.all chunk → Turns chunk .finished
  | missing {chunk : List Operand} {e : RuntimeError} : e.ofOperands → Turns chunk (.missing e)
  | reduce {a b : List Operand} {left x right : Operand} {op : Op} {tier : Tier} :
      left.op? = none → tier.op? x = some op → right.op? = none →
      Turns (a ++ left :: x :: right :: b) (.reduce op (a.length + 1))

theorem turn_turns (chunk : List Operand) : ∃ t, turn chunk = some t ∧ Turns chunk t := by
  cases h : nextOperator? chunk with
  | none =>
    have hclear := clear_of_nextOperator? h
    exact ⟨.finished, turn_of_clear hclear, .finished hclear⟩
  | some found =>
    obtain ⟨index, op⟩ := found
    obtain ⟨-, -, tier, a, b, x, -, rfl, rfl, hx, -, -⟩ := split_of_nextOperator? h
    rw [turn_of_operator h]
    split
    · exact ⟨_, rfl, .missing rfl⟩
    · rename_i hleft
      split
      · exact ⟨_, rfl, .missing rfl⟩
      · rename_i hright
        obtain ⟨a, left, rfl⟩ : ∃ a' left, a = a' ++ [left] := by
          rcases List.eq_nil_or_concat a with rfl | ⟨a, left, rfl⟩
          · simp at hleft
          · exact ⟨a, left, by simp⟩
        obtain ⟨right, b, rfl⟩ : ∃ right b', b = right :: b' := by
          cases b with
          | nil => simp at hright
          | cons right b => exact ⟨right, b, rfl⟩
        simp only [List.append_assoc, List.singleton_append, List.length_append,
          List.length_singleton]
        exact ⟨_, rfl, .reduce (by simpa using hleft) hx (by simpa using hright)⟩

/-- Induction on the turns of a chunk. The result of a reduction may be any literal. -/
theorem turns_induction {motive : List Operand → Prop}
    (finished : ∀ chunk, turn chunk = some .finished → Clear Tier.all chunk → motive chunk)
    (missing : ∀ chunk err, turn chunk = some (.missing err) → err.ofOperands → motive chunk)
    (reduce : ∀ (a b : List Operand) (left x right : Operand) (op : Op) (tier : Tier),
      turn (a ++ left :: x :: right :: b) = some (.reduce op (a.length + 1)) →
      left.op? = none → tier.op? x = some op → right.op? = none →
      (∀ v, motive (a ++ .reduced v :: b)) → motive (a ++ left :: x :: right :: b))
    (chunk : List Operand) : motive chunk := by
  induction hlength : chunk.length using Nat.strongRecOn generalizing chunk with
  | ind n ih =>
    obtain ⟨t, ht, hturns⟩ := turn_turns chunk
    cases hturns with
    | finished hclear => exact finished chunk ht hclear
    | missing herr => exact missing chunk _ ht herr
    | reduce hleft hx hright =>
      refine reduce _ _ _ _ _ _ _ ht hleft hx hright fun v => ih _ ?_ _ rfl
      simp only [← hlength, List.length_append, List.length_cons]
      omega

/-! ## Turns and sweeps -/

namespace Evaluator

variable {σ : Type} {e : Evaluator σ}

theorem splicing_of_clear {chunk : List Operand} (h : Clear Tier.all chunk) :
    e.splicing chunk = pure (some chunk) := by
  rw [splicing, turn_of_clear h]

theorem splicing_missing {chunk : List Operand} {err : RuntimeError}
    (h : turn chunk = some (.missing err)) : e.splicing chunk = Eval.fail err := by
  rw [splicing, h]

theorem splicing_reduce {a b : List Operand} {left x right : Operand} {op : Op}
    (h : turn (a ++ left :: x :: right :: b) = some (.reduce op (a.length + 1))) :
    e.splicing (a ++ left :: x :: right :: b) =
      e.reduce op left right >>= fun v => e.splicing (a ++ .reduced v :: b) := by
  have hleft : (a ++ left :: x :: right :: b)[a.length + 1 - 1]? = some left := by simp
  have hright : (a ++ left :: x :: right :: b)[a.length + 1 + 1]? = some right := by
    simp [Nat.add_assoc]
  rw [splicing, h]
  simp only [hleft, hright]
  congr 1
  funext v
  split
  · rename_i rest hrest
    rw [splice?_eq] at hrest
    cases hrest
    rfl
  · rename_i hrest
    rw [splice?_eq] at hrest
    cases hrest

/-- The turn of a chunk in which a sweep has come to an operator. -/
theorem turn_of_sweep {tighter looser : List Tier} {tier : Tier}
    (htiers : Tier.all = tighter ++ tier :: looser) {before passed : List Operand} {x : Operand}
    {op : Op} (htighter : Clear tighter ((x :: before).reverse ++ passed))
    (hx : tier.op? x = some op) (hpassed : Clear [tier] passed) :
    turn ((x :: before).reverse ++ passed) =
      if before.head?.all (·.op?.isSome) then some (.missing (.missingLeftOperand op))
      else if passed.head?.all (·.op?.isSome) then some (.missing (.missingRightOperand op))
      else some (.reduce op before.length) := by
  rw [List.reverse_cons, List.append_assoc, List.singleton_append] at htighter ⊢
  rw [turn_of_operator (nextOperator?_split htiers htighter hx hpassed), List.getLast?_reverse,
    List.length_reverse]

/-- One sweep does the turns of its tier, and the turns go on with what it leaves. -/
theorem splicing_sweep {tighter looser : List Tier} {tier : Tier}
    (htiers : Tier.all = tighter ++ tier :: looser)
    {next : List Operand → Eval σ (Option (List Operand))}
    (hnext : ∀ passed, Clear (tighter ++ [tier]) passed → e.splicing passed = next passed)
    (before passed : List Operand) (htighter : Clear tighter (before.reverse ++ passed))
    (hpassed : Clear [tier] passed) :
    e.splicing (before.reverse ++ passed) = e.sweep tier before passed >>= next := by
  induction before, passed using sweep.induct tier with
  | case1 passed =>
    rw [sweep, pure_bind]
    refine hnext passed fun x hx tier' htier' => ?_
    rcases List.mem_append.mp htier' with htier' | htier'
    · exact htighter x hx tier' htier'
    · exact hpassed x hx tier' htier'
  | case2 passed x before hx ih =>
    simp only [sweep, hx]
    rw [List.reverse_cons, List.append_assoc] at htighter ⊢
    exact ih htighter (Clear.cons.mpr ⟨by simpa using hx, hpassed⟩)
  | case3 x passed op hx =>
    have hturn := turn_of_sweep htiers htighter hx hpassed
    simp only [sweep, hx]
    exact splicing_missing hturn
  | case4 passed x op hx left before hl =>
    have hturn := turn_of_sweep htiers htighter hx hpassed
    simp only [sweep, hx, if_pos hl]
    exact splicing_missing (hturn.trans (if_pos hl))
  | case5 x op hx left before hl =>
    have hturn := turn_of_sweep htiers htighter hx hpassed
    simp only [sweep, hx, if_neg hl]
    exact splicing_missing (hturn.trans (if_neg hl))
  | case6 x op hx left before hl right passed hr =>
    have hturn := turn_of_sweep htiers htighter hx hpassed
    simp only [sweep, hx, if_neg hl, if_pos hr]
    exact splicing_missing (hturn.trans ((if_neg hl).trans (if_pos hr)))
  | case7 x op hx left before hl right passed hr ih =>
    have hturn := (turn_of_sweep htiers htighter hx hpassed).trans
      ((if_neg hl).trans (if_neg hr))
    have hsplit : (x :: left :: before).reverse ++ right :: passed =
        before.reverse ++ left :: x :: right :: passed := by simp
    rw [hsplit] at htighter hturn ⊢
    rw [List.length_cons, ← List.length_reverse] at hturn
    obtain ⟨hbefore, hrest⟩ := Clear.append.mp htighter
    have hpassed' := (Clear.cons.mp hpassed).2
    have hrest' := (Clear.cons.mp (Clear.cons.mp (Clear.cons.mp hrest).2).2).2
    simp only [sweep, hx, if_neg hl, if_neg hr, bind_assoc]
    rw [splicing_reduce hturn]
    congr 1
    funext v
    refine ih v (Clear.append.mpr ⟨hbefore, Clear.cons.mpr ⟨fun _ _ => rfl, hrest'⟩⟩) ?_
    exact Clear.cons.mpr ⟨fun _ _ => rfl, hpassed'⟩

/-- The sweeps of the tiers that are left do all the turns that are left. -/
theorem splicing_tiers (tiers : List Tier) : ∀ tighter, Tier.all = tighter ++ tiers →
    ∀ chunk, Clear tighter chunk →
      e.splicing chunk = e.reduceTiers tiers chunk >>= fun left => pure (some left) := by
  induction tiers with
  | nil =>
    intro tighter htiers chunk hclear
    rw [List.append_nil] at htiers
    rw [reduceTiers, pure_bind]
    exact splicing_of_clear (htiers ▸ hclear)
  | cons tier looser ih =>
    intro tighter htiers chunk hclear
    have hsweep := splicing_sweep (e := e) htiers
      (ih (tighter ++ [tier]) (by simpa using htiers)) chunk.reverse []
    rw [List.append_nil, List.reverse_reverse] at hsweep
    rw [reduceTiers, bind_assoc]
    exact hsweep hclear Clear.nil

theorem splicing_eq (e : Evaluator σ) (chunk : List Operand) :
    e.splicing chunk = e.reduceChunk chunk >>= fun left => pure (some left) :=
  splicing_tiers Tier.all [] rfl chunk fun _ _ _ htier => absurd htier List.not_mem_nil

end Evaluator

end Bracket
