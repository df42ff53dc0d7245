import Mathlib.Data.List.Basic
import Mathlib.Data.List.Induction
import Bracket.Eval.Run
import Bracket.Proofs.Chains

/-!
# Bracket.Proofs.Assignments

Assignments in a row, `x = y = … = e` (`assignment_chain`).

No operator is looser than `=`, so `e` is reduced first, as if it stood alone (`splicing_append`).
Then the names get their values from the right: the last one the value of `e`, all others what the
literal of that value holds, which is null for a closure.
-/

namespace Bracket

/-- The names before an `=` each, and then the terms. -/
def assigning (names : List String) (rhs : Group) : Group :=
  names.flatMap (fun x => [.ident x, .op .assign]) ++ rhs

/-- What an assignment hands on to the one on its left: a closure has no literal form. -/
def Value.handedOn : Value → Value
  | .closure .. => .null
  | v => v

theorem Value.ofLiteral_toLiteral (v : Value) : ofLiteral v.toLiteral = v.handedOn := by
  cases v <;> rfl

theorem Value.toLiteral_ofLiteral (v : Option Float) : (ofLiteral v).toLiteral = v := by
  cases v <;> rfl

/-! ## What stands before the right-hand side -/

def targets (names : List String) : List Operand :=
  names.flatMap fun x => [.source (.ident x), .source (.op .assign)]

/-- The only operator is `=`. -/
def OnlyAssigns (chunk : List Operand) : Prop := ∀ x ∈ chunk, ∀ op, x.op? = some op → op = .assign

theorem onlyAssigns_targets (names : List String) : OnlyAssigns (targets names) := by
  intro x hx op hop
  obtain ⟨name, -, hx⟩ := List.mem_flatMap.mp hx
  simp only [List.mem_cons, List.not_mem_nil, or_false] at hx
  rcases hx with rfl | rfl <;> cases hop
  rfl

/-- `=` is in the loosest tier. -/
theorem OnlyAssigns.clear {before : List Operand} (h : OnlyAssigns before)
    {tighter looser : List Tier} {tier : Tier} (htiers : Tier.all = tighter ++ tier :: looser) :
    Clear tighter before := by
  have hnodup : (tighter ++ tier :: looser).Nodup := htiers ▸ (by decide : Tier.all.Nodup)
  have hloosest : Tier.assignment ∈ tier :: looser := by
    have hlast : (tighter ++ tier :: looser).getLast? = some .assignment := htiers ▸ rfl
    rw [List.getLast?_append_cons] at hlast
    exact List.mem_of_getLast? hlast
  intro x hx tier' htier'
  cases hop : tier'.op? x with
  | none => rfl
  | some op =>
    obtain ⟨hxop, hoptier⟩ := Tier.op?_eq_some_iff.mp hop
    rw [h x hx op hxop] at hoptier
    cases hoptier
    exact absurd rfl ((List.nodup_append.mp hnodup).2.2 _ htier' _ hloosest)

/-- What is next to be reduced in a chunk still is when there are assignments to the left of it. -/
theorem nextOperator?_append {before chunk : List Operand} (h : OnlyAssigns before) {index : Nat}
    {op : Op} (hnext : nextOperator? chunk = some (index, op)) :
    nextOperator? (before ++ chunk) = some (before.length + index, op) := by
  obtain ⟨tighter, looser, tier, a, b, x, htiers, rfl, rfl, hx, htighter, hb⟩ :=
    split_of_nextOperator? hnext
  rw [← List.append_assoc, ← List.length_append]
  refine nextOperator?_split htiers ?_ hx hb
  rw [List.append_assoc]
  exact Clear.append.mpr ⟨h.clear htiers, htighter⟩

/-- With one operand to its right the last assignment is next. -/
theorem nextOperator?_targets (names : List String) (last : String) {x : Operand}
    (hx : x.op? = none) :
    nextOperator? (targets names ++ .source (.ident last) :: .source (.op .assign) :: x :: []) =
      some ((targets names).length + 1, .assign) := by
  have hleft : OnlyAssigns (targets names ++ [.source (.ident last)]) := by
    refine List.forall_mem_append.mpr ⟨onlyAssigns_targets names, fun y hy op hop => ?_⟩
    rw [List.mem_singleton.mp hy] at hop
    cases hop
  have htiers : Tier.all = [.power, .product, .sum, .comparison] ++ .assignment :: [] := rfl
  have hright : nextOperator? (.source (.op .assign) :: x :: []) = some (0, .assign) :=
    nextOperator?_split (a := []) htiers (Clear.cons.mpr ⟨by decide, .single hx⟩) rfl (.single hx)
  have h := nextOperator?_append hleft hright
  simpa using h

namespace Evaluator

variable {σ : Type} {e : Evaluator σ}

/-- A chain with nothing but assignments to its left is reduced as if it stood alone. -/
theorem splicing_append {before chunk : List Operand} (hbefore : OnlyAssigns before)
    (h : Chain chunk) :
    e.splicing (before ++ chunk) = e.splicing chunk >>= fun found =>
      match found with
      | some left => e.splicing (before ++ left)
      | none => pure none := by
  induction chunk using turns_induction with
  | finished chunk hturn hclear =>
    rw [splicing_of_clear hclear, pure_bind]
  | missing chunk err hturn => exact absurd hturn (h.turn_ne_missing err)
  | reduce a b left x right op tier hturn hleft hx hright ih =>
    have hnext := nextOperator?_append hbefore (nextOperator?_of_turn hturn)
    rw [← Nat.add_assoc, ← List.length_append, ← List.append_assoc] at hnext
    rw [splicing_reduce hturn, ← List.append_assoc,
      splicing_reduce (turn_between hnext hleft hright), bind_assoc]
    congr 1
    funext v
    rw [List.append_assoc]
    exact ih v (h.reduced v rfl hleft)

/-- The rightmost assignment, when its right-hand side is one operand. -/
theorem splicing_target (names : List String) (last : String) {x : Operand} (hx : x.op? = none) :
    e.splicing (targets (names ++ [last]) ++ [x]) = (do
      let v ← e.operand x
      Eval.modify (e.assign last v)
      e.splicing (targets names ++ [.reduced v.toLiteral])) := by
  have hsplit : targets (names ++ [last]) ++ [x] =
      targets names ++ .source (.ident last) :: .source (.op .assign) :: x :: [] := by
    simp [targets]
  have hturn := turn_between (nextOperator?_targets names last hx) rfl hx
  rw [hsplit, splicing_reduce hturn, reduce, if_pos rfl, assignment]
  simp only [bind_assoc, pure_bind]

/-- Assignments of a literal. -/
theorem splicing_targets (names : List String) (v : Option Float) :
    e.splicing (targets names ++ [.reduced v]) = (do
      Eval.modify fun s => names.foldr (fun x s => e.assign x (Value.ofLiteral v) s) s
      pure (some [.reduced v])) := by
  induction names using List.reverseRecOn with
  | nil => exact splicing_of_clear (.single rfl)
  | append_singleton names last ih =>
    rw [splicing_target names last rfl]
    simp only [operand, pure_bind, Value.toLiteral_ofLiteral, ih, List.foldr_append,
      List.foldr_cons, List.foldr_nil]
    rfl

theorem terms_of_no_comma {g : Group} (h : ∀ t ∈ g, t.op? ≠ some .comma) :
    e.terms g = e.splicing (g.map .source) >>= fun found => e.lastOf .null (found.getD []) := by
  rw [terms, chunks_of_no_comma h, reduceChunks, reduceChunks, splicing_eq]
  simp

theorem terms_assigning (names : List String) (last : String) {rhs : Group}
    (h : Chain (rhs.map .source)) :
    e.terms (assigning (names ++ [last]) rhs) = (do
      let v ← e.terms rhs
      Eval.modify (e.assign last v)
      Eval.modify fun s => names.foldr (fun x s => e.assign x v.handedOn s) s
      pure v.handedOn) := by
  have hrhs : ∀ t ∈ rhs, t.op? ≠ some .comma := fun t ht =>
    h.not_comma (.source t) (List.mem_map_of_mem ht)
  have hall : ∀ t ∈ assigning (names ++ [last]) rhs, t.op? ≠ some .comma := by
    refine List.forall_mem_append.mpr ⟨fun t ht => ?_, hrhs⟩
    obtain ⟨name, -, ht⟩ := List.mem_flatMap.mp ht
    simp only [List.mem_cons, List.not_mem_nil, or_false] at ht
    rcases ht with rfl | rfl <;> nofun
  have hchunk : (assigning (names ++ [last]) rhs).map .source =
      targets (names ++ [last]) ++ rhs.map .source := by
    simp [assigning, targets, List.map_flatMap]
  rw [terms_of_no_comma hall, terms_of_no_comma hrhs, hchunk,
    splicing_append (onlyAssigns_targets _) h, bind_assoc, bind_assoc]
  refine (splicing_chain h).bind_congr fun found hfound => ?_
  obtain ⟨x, rfl, hx, -⟩ := hfound
  simp only [splicing_target names last hx, splicing_targets, Value.ofLiteral_toLiteral, lastOf,
    operand, Option.getD_some, bind_assoc, pure_bind]

end Evaluator

/-- An assignment chain whose right-hand side is one operand, or several with an operator between
each two. The right-hand side is evaluated once and gives some `v`. The last name is assigned `v`,
and then the others, from the last to the first, what `v` is handed on as. If the right-hand side
fails so does the list, and no name is assigned to. -/
theorem assignment_chain (m : Machine) (c : Context) (names : List String) (last : String)
    {rhs : Group} (h : Chain (rhs.map .source)) :
    m.evalTerms (assigning (names ++ [last]) rhs) c =
      (m.evalTerms rhs c).andThen fun v d =>
        .done v.handedOn (names.foldr (fun x d => d.assign x v.handedOn) (d.assign last v)) :=
  congrFun (Evaluator.terms_assigning names last h) c

/-- `f = g = f = {}` leaves both names null; `f = g = 1 + x` assigns to none. -/
theorem assignment_chain_closure :
    let m : Machine := { patience := 0 }
    let sum : Group := [.literal (some 1.0), .op .add, .ident "x"]
    Chain ([Term.closure none []].map .source) ∧
    (∃ d, m.evalTerms (assigning (["f", "g"] ++ ["f"]) [.closure none []]) Context.fresh =
        .done .null d ∧
      d.scopes.global = [("f", .null), ("g", .null)]) ∧
    Chain (sum.map .source) ∧
    m.evalTerms (assigning (["f"] ++ ["g"]) sum) Context.fresh =
      .failed (.expectedNumber .add .null) Context.fresh := by
  intro m sum
  have hclosure : Chain ([Term.closure none []].map .source) := .operand rfl
  have hsum : Chain (sum.map .source) := .operator rfl rfl nofun (.operand rfl)
  exact ⟨hclosure, ⟨_, assignment_chain m Context.fresh ["f", "g"] "f" hclosure, rfl⟩, hsum,
    assignment_chain m Context.fresh ["f"] "g" hsum⟩

end Bracket
