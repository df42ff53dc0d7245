import Mathlib.Data.List.Basic
import Mathlib.Data.List.TakeWhile
import Bracket.Eval.Run
import Bracket.Proofs.Splicing

/-!
# Bracket.Proofs.Order

The order in which the operators of a chunk are reduced, told from the chunk as it was written:
tier by tier from the tightest, from the right within a tier, each operator with the error it has
coming if it lacks an operand on one side.

Reduction itself searches a chunk that has been reduced in part. The two agree (`splicing_order`)
because a reduction leaves an operand where it found an operand, an operator and an operand: what
stands next to the other operators is an operand after it if and only if it was one before.

`missing_operands_exact`: an operator that lacks an operand is reported as soon as those before it
in the order are reduced, and no other one ever is.
-/

namespace Bracket

/-- An operator of a chunk: its position, and its error if it lacks an operand. -/
structure Site where
  position : Nat
  op : Op
  missing : Option RuntimeError

/-- The error of an operator, by whether operands stand on its two sides. -/
def missing? (op : Op) (left right : Bool) : Option RuntimeError :=
  if !left then some (.missingLeftOperand op)
  else if !right then some (.missingRightOperand op)
  else none

/-! ## Operators and their positions -/

def beginsWithOperand : List (Operand × Nat) → Bool
  | [] => false
  | (x, _) :: _ => x.op?.isNone

/-- The operators of a chunk from left to right; `left` says whether an operand stands before it. -/
def sites (left : Bool) : List (Operand × Nat) → List Site
  | [] => []
  | (x, i) :: rest =>
    match x.op? with
    | none => sites true rest
    | some op => ⟨i, op, missing? op left (beginsWithOperand rest)⟩ :: sites false rest

/-- The tightest tier first, and each tier from the right. The comma is in none. -/
def byTier (ss : List Site) : List Site :=
  Tier.all.flatMap fun tier => ss.reverse.filter fun s => s.op.tier? = some tier

/-- The operators of a chunk in the order in which they are reduced. -/
def order (chunk : List Operand) : List Site := byTier (sites false chunk.zipIdx)

def operandAt (chunk : List Operand) (i : Nat) : Bool := chunk[i]?.any (·.op?.isNone)

/-- An operand stands before the position; `left` says it of the position where the chunk begins. -/
def operandBefore (left : Bool) (chunk : List Operand) : Nat → Bool
  | 0 => left
  | i + 1 => operandAt chunk i

/-- Of a tighter tier, or of the same tier and further to the right. -/
def Site.Before (r s : Site) : Prop :=
  ∃ tier tier', r.op.tier? = some tier ∧ s.op.tier? = some tier' ∧
    (Tier.all.idxOf tier < Tier.all.idxOf tier' ∨ tier = tier' ∧ s.position < r.position)

/-! ## Reducing them in the order -/

/-- What stands around the operator at a position: what is left of its left neighbour, its
neighbours, and what is right of the right one. -/
def surroundings? (i : Nat) : List (Operand × Nat) →
    Option (List (Operand × Nat) × (Operand × Nat) × (Operand × Nat) × List (Operand × Nat))
  | left :: x :: right :: b =>
    if x.2 = i then some ([], left, right, b)
    else
      match surroundings? i (x :: right :: b) with
      | some (a, l, r, b) => some (left :: a, l, r, b)
      | none => none
  | _ => none

/-- Reduces operators one after another. No neighbour is looked at; a result keeps the position of
its left operand. -/
def Evaluator.reductions {σ : Type} (e : Evaluator σ) :
    List Site → List (Operand × Nat) → Eval σ (List (Operand × Nat))
  | [], chunk => pure chunk
  | s :: later, chunk =>
    match surroundings? s.position chunk with
    | some (a, left, right, b) => do
      let v ← e.reduce s.op left.1 right.1
      reductions e later (a ++ (.reduced v, left.2) :: b)
    | none => reductions e later chunk

/-! ## What a reduction leaves of the order -/

theorem beginsWithOperand_append {y : Operand × Nat} (hy : y.1.op? = none)
    (a b : List (Operand × Nat)) :
    beginsWithOperand (a ++ y :: b) = beginsWithOperand (a ++ [(.reduced none, 0)]) := by
  cases a with
  | nil =>
    show y.1.op?.isNone = true
    rw [hy]
    rfl
  | cons x a => rfl

/-- It does not matter which operand stands between two parts of a chunk. -/
theorem sites_append {y : Operand × Nat} (hy : y.1.op? = none) (b : List (Operand × Nat)) :
    ∀ (a : List (Operand × Nat)) (left : Bool),
      sites left (a ++ y :: b) = sites left (a ++ [(.reduced none, 0)]) ++ sites true b := by
  intro a
  induction a with
  | nil =>
    intro left
    simp only [List.nil_append, sites, hy]
    rfl
  | cons x a ih =>
    intro left
    obtain ⟨x, i⟩ := x
    simp only [List.cons_append, sites]
    cases x.op? with
    | none => exact ih true
    | some op =>
      simp only [List.cons_append]
      rw [ih false, beginsWithOperand_append hy]

/-- An operator of the chunk, with the operators to its left and to its right. -/
theorem sites_operator {x : Operand} {i : Nat} {op : Op} (hx : x.op? = some op)
    (b : List (Operand × Nat)) : ∀ (a : List (Operand × Nat)) (left : Bool), ∃ before,
      sites left (a ++ (x, i) :: b) = before ++
        ⟨i, op, missing? op (a.getLast?.elim left (·.1.op?.isNone)) (beginsWithOperand b)⟩ ::
          sites false b := by
  intro a
  induction a with
  | nil =>
    intro left
    refine ⟨[], ?_⟩
    simp only [List.nil_append, sites, hx]
    rfl
  | cons y a ih =>
    intro left
    obtain ⟨y, j⟩ := y
    have hlast : ((y, j) :: a).getLast?.elim left (·.1.op?.isNone) =
        a.getLast?.elim y.op?.isNone (·.1.op?.isNone) := by
      rw [List.getLast?_cons]
      cases a.getLast? <;> rfl
    rw [hlast]
    simp only [List.cons_append, sites]
    cases y.op? with
    | none => exact ih true
    | some o =>
      obtain ⟨before, hbefore⟩ := ih false
      exact ⟨_ :: before, congrArg _ hbefore⟩

theorem op?_of_mem_sites {s : Site} {l : List (Operand × Nat)} :
    ∀ {left : Bool}, s ∈ sites left l → ∃ x ∈ l.map Prod.fst, x.op? = some s.op := by
  induction l with
  | nil => exact fun h => absurd h List.not_mem_nil
  | cons x l ih =>
    intro left h
    obtain ⟨x, i⟩ := x
    have htail : ∀ {left}, s ∈ sites left l →
        ∃ y ∈ ((x, i) :: l).map Prod.fst, y.op? = some s.op := fun h =>
      (ih h).imp fun _ hy => ⟨List.mem_cons_of_mem _ hy.1, hy.2⟩
    simp only [sites] at h
    split at h
    · exact htail h
    · rename_i op hop
      rcases List.mem_cons.mp h with rfl | h
      · exact ⟨x, List.mem_cons_self, hop⟩
      · exact htail h

/-- In a part of a chunk without operators of a tier there is no operator of it. -/
theorem tier?_of_clear {tiers : List Tier} {l : List (Operand × Nat)}
    (h : Clear tiers (l.map Prod.fst)) {left : Bool} {s : Site} (hs : s ∈ sites left l)
    {tier : Tier} (htier : tier ∈ tiers) : s.op.tier? ≠ some tier := by
  intro hop
  obtain ⟨x, hx, hxop⟩ := op?_of_mem_sites hs
  have hnone := h x hx tier htier
  rw [Tier.op?_eq_some_iff.mpr ⟨hxop, hop⟩] at hnone
  cases hnone

theorem flatMap_filter_eq_nil {tiers : List Tier} {ss : List Site}
    (h : ∀ s ∈ ss, ∀ tier ∈ tiers, s.op.tier? ≠ some tier) :
    (tiers.flatMap fun tier => ss.reverse.filter fun s => s.op.tier? = some tier) = [] := by
  rw [List.flatMap_eq_nil_iff]
  intro tier htier
  rw [List.filter_eq_nil_iff]
  intro s hs
  simpa using h s (List.mem_reverse.mp hs) tier htier

/-- The last operator of the tightest tier is the first of the order. -/
theorem byTier_cons {tighter looser : List Tier} {tier : Tier}
    (htiers : Tier.all = tighter ++ tier :: looser) {before after : List Site} {s : Site}
    (hs : s.op.tier? = some tier)
    (htighter : ∀ t ∈ before ++ s :: after, ∀ tier' ∈ tighter, t.op.tier? ≠ some tier')
    (hafter : ∀ t ∈ after, t.op.tier? ≠ some tier) :
    byTier (before ++ s :: after) = s :: byTier (before ++ after) := by
  have hnodup : (tighter ++ tier :: looser).Nodup := htiers ▸ (by decide : Tier.all.Nodup)
  have hlooser : ∀ tier' ∈ looser, tier ≠ tier' := by
    rintro _ htier' rfl
    exact (List.nodup_cons.mp (List.nodup_append.mp hnodup).2.1).1 htier'
  have htighter' : ∀ t ∈ before ++ after, ∀ tier' ∈ tighter, t.op.tier? ≠ some tier' := by
    intro t ht
    refine htighter t ?_
    rcases List.mem_append.mp ht with ht | ht
    · exact List.mem_append_left _ ht
    · exact List.mem_append_right _ (List.mem_cons_of_mem _ ht)
  have hnone : after.reverse.filter (fun t => t.op.tier? = some tier) = [] := by
    rw [List.filter_eq_nil_iff]
    intro t ht
    simpa using hafter t (List.mem_reverse.mp ht)
  have hsame : (looser.flatMap fun tier' =>
        (before ++ s :: after).reverse.filter fun t => t.op.tier? = some tier') =
      looser.flatMap fun tier' =>
        (before ++ after).reverse.filter fun t => t.op.tier? = some tier' := by
    refine List.flatMap_congr fun tier' htier' => ?_
    have hpass : s.op.tier? ≠ some tier' := fun h =>
      hlooser tier' htier' (Option.some.inj (hs.symm.trans h))
    simp [List.filter_append, hpass]
  simp only [byTier, htiers, List.flatMap_append, List.flatMap_cons,
    flatMap_filter_eq_nil htighter, flatMap_filter_eq_nil htighter', hsame, List.nil_append]
  simp [List.filter_append, hnone, hs]

/-- The next operator of a chunk is the first of its order, and its turn is what its neighbours
make of it. -/
theorem order_head {l : List (Operand × Nat)} {index : Nat} {op : Op}
    (h : nextOperator? (l.map Prod.fst) = some (index, op)) :
    ∃ (a b : List (Operand × Nat)) (x : Operand) (i : Nat) (before : List Site)
      (missing : Option RuntimeError), l = a ++ (x, i) :: b ∧ x.op? = some op ∧
      missing = missing? op (a.getLast?.elim false (·.1.op?.isNone)) (beginsWithOperand b) ∧
      sites false l = before ++ ⟨i, op, missing⟩ :: sites false b ∧
      byTier (sites false l) = ⟨i, op, missing⟩ :: byTier (before ++ sites false b) ∧
      turn (l.map Prod.fst) = match missing with
        | some err => some (.missing err)
        | none => some (.reduce op a.length) := by
  obtain ⟨tighter, looser, tier, u, v, x, htiers, hl, rfl, hx, htighter, hv⟩ :=
    split_of_nextOperator? h
  obtain ⟨a, rest, rfl, rfl, hrest⟩ := List.map_eq_append_iff.mp hl
  obtain ⟨⟨y, i⟩, b, rfl, rfl, rfl⟩ := List.map_eq_cons_iff.mp hrest
  obtain ⟨hop, htier⟩ := Tier.op?_eq_some_iff.mp hx
  obtain ⟨before, hsites⟩ := sites_operator (i := i) hop b a false
  refine ⟨a, b, y, i, before, _, rfl, hop, rfl, hsites, ?_, ?_⟩
  · rw [hsites]
    refine byTier_cons htiers htier ?_ fun t ht => tier?_of_clear hv ht List.mem_cons_self
    intro t ht tier' htier'
    rw [← hsites] at ht
    exact tier?_of_clear htighter ht htier'
  · rw [hl] at h ⊢
    rw [turn_of_operator h, List.getLast?_map, List.head?_map, List.length_map]
    have hleft : (a.getLast?.map Prod.fst).all (·.op?.isSome) =
        !a.getLast?.elim false (·.1.op?.isNone) := by
      cases a.getLast? with
      | none => rfl
      | some y => simp
    have hright : (b.head?.map Prod.fst).all (·.op?.isSome) = !beginsWithOperand b := by
      cases b with
      | nil => rfl
      | cons y b => simp [beginsWithOperand]
    simp only [hleft, hright, missing?]
    split
    · rfl
    · split <;> rfl

/-- An operator that lacks nothing stands between two operands. -/
theorem operands_of_missing? {op : Op} {a b : List (Operand × Nat)}
    (h : missing? op (a.getLast?.elim false (·.1.op?.isNone)) (beginsWithOperand b) = none) :
    ∃ a' left right b', a = a' ++ [left] ∧ b = right :: b' ∧ left.1.op? = none ∧
      right.1.op? = none := by
  unfold missing? at h
  split at h
  · cases h
  · rename_i hleft
    split at h
    · cases h
    · rename_i hright
      rcases List.eq_nil_or_concat a with rfl | ⟨a, left, rfl⟩
      · simp at hleft
      · cases b with
        | nil => simp [beginsWithOperand] at hright
        | cons right b =>
          refine ⟨a, left, right, b, by simp, rfl, ?_, ?_⟩
          · simpa using hleft
          · simpa [beginsWithOperand] using hright

/-- Without the operator that is reduced the others are as they were. -/
theorem sites_reduced {a b : List (Operand × Nat)} {left right : Operand × Nat} {x : Operand}
    {i : Nat} {op : Op} {before : List Site} (hleft : left.1.op? = none) (hx : x.op? = some op)
    (hright : right.1.op? = none)
    (h : sites false (a ++ left :: (x, i) :: right :: b) =
      before ++ ⟨i, op, none⟩ :: sites false (right :: b)) (v : Option Float) :
    before ++ sites false (right :: b) = sites false (a ++ (.reduced v, left.2) :: b) := by
  have hrest : sites false (right :: b) = sites true b := by simp only [sites, hright]
  have hsite : sites true ((x, i) :: right :: b) = ⟨i, op, none⟩ :: sites false (right :: b) := by
    simp [sites, hx, beginsWithOperand, hright, missing?]
  rw [sites_append hleft, hsite] at h
  rw [sites_append rfl, ← List.append_cancel_right h, hrest]

theorem surroundings?_append {i : Nat} {x : Operand} (left right : Operand × Nat)
    (b : List (Operand × Nat)) : ∀ a : List (Operand × Nat), (∀ y ∈ a, y.2 ≠ i) → left.2 ≠ i →
      surroundings? i (a ++ left :: (x, i) :: right :: b) = some (a, left, right, b) := by
  intro a
  induction a with
  | nil =>
    intro _ _
    rw [List.nil_append, surroundings?, if_pos rfl]
  | cons y a ih =>
    intro ha hleft
    obtain ⟨-, ha⟩ := List.forall_mem_cons.mp ha
    have ih := ih ha hleft
    cases a with
    | nil =>
      rw [List.nil_append] at ih
      rw [List.cons_append, List.nil_append, surroundings?, if_neg hleft, ih]
    | cons z a =>
      have hz : z.2 ≠ i := ha z List.mem_cons_self
      cases a with
      | nil =>
        simp only [List.cons_append, List.nil_append] at ih ⊢
        rw [surroundings?, if_neg hz, ih]
      | cons w a =>
        simp only [List.cons_append] at ih ⊢
        rw [surroundings?, if_neg hz, ih]

/-! ## Reduction and order -/

/-- The operators before the first one that lacks an operand. -/
def ready (ss : List Site) : List Site := ss.takeWhile (·.missing.isNone)

/-- The error of the first operator that lacks an operand. -/
def firstMissing? (ss : List Site) : Option RuntimeError := ss.findSome? Site.missing

namespace Evaluator

variable {σ : Type}

/-- Reduces the operators of an order up to the first one that lacks an operand, and reports it. -/
def inOrder (e : Evaluator σ) (ss : List Site) (chunk : List (Operand × Nat)) :
    Eval σ (List Operand) := do
  let rest ← e.reductions (ready ss) chunk
  match firstMissing? ss with
  | some err => Eval.fail err
  | none => pure (rest.map Prod.fst)

variable {e : Evaluator σ}

theorem inOrder_nil (chunk : List (Operand × Nat)) :
    e.inOrder [] chunk = pure (chunk.map Prod.fst) := rfl

theorem inOrder_missing {s : Site} {err : RuntimeError} (hs : s.missing = some err)
    (later : List Site) (chunk : List (Operand × Nat)) :
    e.inOrder (s :: later) chunk = Eval.fail err := by
  have hready : ready (s :: later) = [] := by simp [ready, hs]
  have hfirst : firstMissing? (s :: later) = some err := by simp [firstMissing?, hs]
  rw [inOrder, hready, hfirst]
  rfl

theorem inOrder_reduce {i : Nat} {op : Op} {a b : List (Operand × Nat)} {left right : Operand × Nat}
    {x : Operand} (hlabel : ∀ y ∈ a, y.2 ≠ i) (hleft : left.2 ≠ i) (later : List Site) :
    e.inOrder (⟨i, op, none⟩ :: later) (a ++ left :: (x, i) :: right :: b) =
      e.reduce op left.1 right.1 >>= fun v => e.inOrder later (a ++ (.reduced v, left.2) :: b) := by
  have hready : ready (⟨i, op, none⟩ :: later) = ⟨i, op, none⟩ :: ready later := by simp [ready]
  have hfirst : firstMissing? (⟨i, op, none⟩ :: later) = firstMissing? later := by
    simp [firstMissing?]
  simp only [inOrder, hready, hfirst, reductions, surroundings?_append left right b a hlabel hleft,
    bind_assoc]

/-- Searching the chunk again after each reduction finds the operators in the order that the chunk
had at first. -/
theorem splicing_order (l : List (Operand × Nat)) (hl : (l.map Prod.snd).Nodup) :
    e.splicing (l.map Prod.fst) =
      e.inOrder (byTier (sites false l)) l >>= fun left => pure (some left) := by
  induction hlength : l.length using Nat.strongRecOn generalizing l with
  | ind n ih =>
    cases hnext : nextOperator? (l.map Prod.fst) with
    | none =>
      have hclear := clear_of_nextOperator? hnext
      have horder : byTier (sites false l) = [] :=
        flatMap_filter_eq_nil fun s hs tier htier => tier?_of_clear hclear hs htier
      rw [splicing_of_clear hclear, horder, inOrder_nil, pure_bind]
    | some found =>
      obtain ⟨index, op⟩ := found
      obtain ⟨a, b, x, i, before, missing, rfl, hx, hmissing, hsites, horder, hturn⟩ :=
        order_head hnext
      rw [horder]
      cases missing with
      | some err => rw [splicing_missing hturn, inOrder_missing rfl, Eval.fail_bind]
      | none =>
        obtain ⟨a, left, right, b, rfl, rfl, hleft, hright⟩ := operands_of_missing? hmissing.symm
        have hchunk : a ++ [left] ++ (x, i) :: right :: b = a ++ left :: (x, i) :: right :: b := by
          simp
        have hindex : (a ++ [left]).length = (a.map Prod.fst).length + 1 := by simp
        rw [hchunk] at hl hlength hsites hturn ⊢
        rw [hindex] at hturn
        have hrest : a.map Prod.fst ++ left.1 :: x :: right.1 :: b.map Prod.fst =
            (a ++ left :: (x, i) :: right :: b).map Prod.fst := by simp
        rw [← hrest] at hturn ⊢
        have hlabels : (a.map Prod.snd ++ left.2 :: i :: right.2 :: b.map Prod.snd).Nodup := by
          simpa using hl
        obtain ⟨-, hinner, hdisjoint⟩ := List.nodup_append.mp hlabels
        have hbefore : ∀ y ∈ a, y.2 ≠ i := fun y hy =>
          hdisjoint _ (List.mem_map_of_mem hy) _ (by simp)
        have hne : left.2 ≠ i := fun h => (List.nodup_cons.mp hinner).1 (by simp [h])
        rw [splicing_reduce hturn, inOrder_reduce hbefore hne, bind_assoc]
        congr 1
        funext v
        rw [sites_reduced hleft hx hright hsites v, ← ih _ ?_ _ ?_ rfl]
        · simp
        · simp only [← hlength, List.length_append, List.length_cons]
          omega
        · refine List.Nodup.sublist ?_ hlabels
          simp

theorem reduceChunk_order (e : Evaluator σ) (chunk : List Operand) :
    e.reduceChunk chunk = e.inOrder (order chunk) chunk.zipIdx := by
  have hnodup : (chunk.zipIdx.map Prod.snd).Nodup := by
    rw [List.zipIdx_map_snd]
    exact List.nodup_range'
  have hsplicing := splicing_order (e := e) chunk.zipIdx hnodup
  rw [List.zipIdx_map_fst, splicing_eq] at hsplicing
  exact Eval.some_injective hsplicing

/-- Without a look at neighbours nothing fails but the reduction of an operator. -/
theorem reduce_of_reductions {ss : List Site} {s s' : σ} {err : RuntimeError} :
    ∀ {chunk}, e.reductions ss chunk s = .failed err s' →
      ∃ op left right t, e.reduce op left right t = .failed err s' := by
  induction ss generalizing s with
  | nil => exact fun h => nomatch h
  | cons site later ih =>
    intro chunk h
    cases hsite : surroundings? site.position chunk with
    | none =>
      simp only [reductions, hsite] at h
      exact ih h
    | some found =>
      obtain ⟨a, left, right, b⟩ := found
      simp only [reductions, hsite, Eval.bind_apply] at h
      cases hv : e.reduce site.op left.1 right.1 s with
      | done v t =>
        rw [hv] at h
        exact ih h
      | failed err' t =>
        rw [hv] at h
        cases h
        exact ⟨_, _, _, _, hv⟩
      | unfinished =>
        rw [hv] at h
        cases h

theorem inOrder_complete {ss : List Site} (h : ∀ s ∈ ss, s.missing = none)
    (chunk : List (Operand × Nat)) :
    e.inOrder ss chunk = e.reductions ss chunk >>= fun rest => pure (rest.map Prod.fst) := by
  have hready : ready ss = ss := List.takeWhile_eq_self_iff.mpr fun s hs => by simp [h s hs]
  have hfirst : firstMissing? ss = none := List.findSome?_eq_none_iff.mpr h
  rw [inOrder, hready, hfirst]

theorem inOrder_first {earlier later : List Site} {s : Site} {err : RuntimeError}
    (h : ∀ r ∈ earlier, r.missing = none) (hs : s.missing = some err)
    (chunk : List (Operand × Nat)) :
    e.inOrder (earlier ++ s :: later) chunk =
      e.reductions earlier chunk >>= fun _ => Eval.fail err := by
  have hready : ready (earlier ++ s :: later) = earlier := by
    rw [ready, List.takeWhile_append_of_pos fun r hr => by simp [h r hr]]
    simp [hs]
  have hfirst : firstMissing? (earlier ++ s :: later) = some err :=
    List.findSome?_eq_some_iff.mpr ⟨earlier, s, later, rfl, hs, h⟩
  rw [inOrder, hready, hfirst]

end Evaluator

/-! ## The operators of the order -/

theorem operandAt_cons (x : Operand) (chunk : List Operand) (i : Nat) :
    operandAt (x :: chunk) i = operandBefore x.op?.isNone chunk i := by
  cases i <;> rfl

theorem beginsWithOperand_zipIdx (chunk : List Operand) (n : Nat) :
    beginsWithOperand (chunk.zipIdx n) = operandAt chunk 0 := by
  cases chunk <;> rfl

theorem mem_sites_zipIdx {chunk : List Operand} {s : Site} : ∀ (left : Bool) (n : Nat),
    s ∈ sites left (chunk.zipIdx n) ↔ ∃ i, s.position = n + i ∧
      chunk[i]?.bind Operand.op? = some s.op ∧
      s.missing = missing? s.op (operandBefore left chunk i) (operandAt chunk (i + 1)) := by
  obtain ⟨position, op, missing⟩ := s
  induction chunk with
  | nil => simp [sites]
  | cons x chunk ih =>
    intro left n
    -- an operator further on is the same one in the chunk without its first operand
    have hlater : (∃ i, position = n + 1 + i ∧ chunk[i]?.bind Operand.op? = some op ∧
          missing = missing? op (operandBefore x.op?.isNone chunk i) (operandAt chunk (i + 1))) ↔
        ∃ i, position = n + (i + 1) ∧ (x :: chunk)[i + 1]?.bind Operand.op? = some op ∧
          missing = missing? op (operandBefore left (x :: chunk) (i + 1))
            (operandAt (x :: chunk) (i + 1 + 1)) := by
      simp only [operandBefore, operandAt_cons, List.getElem?_cons_succ, Nat.add_assoc,
        Nat.add_comm 1]
    rw [← Nat.or_exists_add_one, ← hlater, List.zipIdx_cons, sites]
    cases hx : x.op? with
    | none => simpa [hx] using ih true (n + 1)
    | some o =>
      have ih := ih false (n + 1)
      simp only [List.mem_cons, Site.mk.injEq, ih, hx, beginsWithOperand_zipIdx, operandAt_cons,
        operandBefore, Option.isNone_some, List.getElem?_cons_zero, Option.bind_some, Nat.add_zero,
        Option.some.injEq]
      refine or_congr_left ⟨?_, ?_⟩
      · rintro ⟨rfl, rfl, rfl⟩
        exact ⟨rfl, rfl, rfl⟩
      · rintro ⟨rfl, rfl, rfl⟩
        exact ⟨rfl, rfl, rfl⟩

theorem mem_order_iff {chunk : List Operand} {s : Site} :
    s ∈ order chunk ↔ s.op ≠ .comma ∧ chunk[s.position]?.bind Operand.op? = some s.op ∧
      s.missing = missing? s.op (operandBefore false chunk s.position)
        (operandAt chunk (s.position + 1)) := by
  have htier : (∃ tier ∈ Tier.all, s.op.tier? = some tier) ↔ s.op ≠ .comma := by
    cases s.op <;> decide
  have hsites : s ∈ sites false chunk.zipIdx ↔ chunk[s.position]?.bind Operand.op? = some s.op ∧
      s.missing = missing? s.op (operandBefore false chunk s.position)
        (operandAt chunk (s.position + 1)) := by
    simpa using mem_sites_zipIdx false 0
  simp only [order, byTier, List.mem_flatMap, List.mem_filter, List.mem_reverse,
    decide_eq_true_eq, ← and_assoc, ← hsites, ← htier]
  rw [← exists_and_right]
  exact exists_congr fun tier => and_right_comm

theorem positions_sublist (l : List (Operand × Nat)) : ∀ left,
    ((sites left l).map Site.position).Sublist (l.map Prod.snd) := by
  induction l with
  | nil => exact fun _ => .slnil
  | cons x l ih =>
    intro left
    obtain ⟨x, i⟩ := x
    rw [sites]
    cases x.op? with
    | none => exact (ih true).cons i
    | some op => exact (ih false).cons_cons i

theorem pairwise_order (chunk : List Operand) : (order chunk).Pairwise Site.Before := by
  have hpositions : (sites false chunk.zipIdx).Pairwise fun r s => r.position < s.position := by
    have hsublist := positions_sublist chunk.zipIdx false
    rw [List.zipIdx_map_snd] at hsublist
    exact List.pairwise_map.mp ((List.pairwise_lt_range' 1).sublist hsublist)
  have htiers : Tier.all.Pairwise fun tier tier' => Tier.all.idxOf tier < Tier.all.idxOf tier' := by
    decide
  have htier : ∀ {r : Site} {tier : Tier},
      r ∈ (sites false chunk.zipIdx).reverse.filter (fun s => s.op.tier? = some tier) →
        r.op.tier? = some tier := fun hr => by simpa using (List.mem_filter.mp hr).2
  rw [order, byTier, List.pairwise_flatMap]
  constructor
  · intro tier _
    refine ((List.pairwise_reverse.mpr hpositions).filter _).imp_of_mem fun hr hs hlt => ?_
    exact ⟨tier, tier, htier hr, htier hs, .inr ⟨rfl, hlt⟩⟩
  · exact htiers.imp fun hlt r hr s hs => ⟨_, _, htier hr, htier hs, .inl hlt⟩

/-- The order holds every operator of the chunk but commas, with the error that its neighbours in
the chunk call for, the tightest tier first and each tier from the right. If no operator lacks an
operand they are reduced in that order, and nothing but a reduction fails. Otherwise the reduction
never succeeds: those before the first one that lacks an operand are reduced, and then it is
reported. -/
theorem missing_operands_exact {σ : Type} (e : Evaluator σ) (chunk : List Operand) :
    ((∀ s, s ∈ order chunk ↔ s.op ≠ .comma ∧ chunk[s.position]?.bind Operand.op? = some s.op ∧
        s.missing = missing? s.op (operandBefore false chunk s.position)
          (operandAt chunk (s.position + 1))) ∧
      (order chunk).Pairwise Site.Before) ∧
    ((∀ s ∈ order chunk, s.missing = none) →
      e.reduceChunk chunk =
        e.reductions (order chunk) chunk.zipIdx >>= fun rest => pure (rest.map Prod.fst)) ∧
    ((∃ s ∈ order chunk, s.missing ≠ none) →
      (∀ c left d, e.reduceChunk chunk c ≠ .done left d) ∧
      ∃ earlier s later err, order chunk = earlier ++ s :: later ∧
        (∀ r ∈ earlier, r.missing = none) ∧ s.missing = some err ∧
        e.reduceChunk chunk = e.reductions earlier chunk.zipIdx >>= fun _ => Eval.fail err) ∧
    ∀ ss c err d, e.reductions ss chunk.zipIdx c = .failed err d →
      ∃ op left right c', e.reduce op left right c' = .failed err d := by
  refine ⟨⟨fun s => mem_order_iff, pairwise_order chunk⟩, ?_, ?_, ?_⟩
  · intro h
    rw [Evaluator.reduceChunk_order, Evaluator.inOrder_complete h]
  · rintro ⟨r, hr, hmissing⟩
    have hfirst : ∃ err, firstMissing? (order chunk) = some err := by
      cases hnone : firstMissing? (order chunk) with
      | some err => exact ⟨err, rfl⟩
      | none => exact absurd (List.findSome?_eq_none_iff.mp hnone r hr) hmissing
    obtain ⟨err, hfirst⟩ := hfirst
    obtain ⟨earlier, s, later, horder, hs, hearlier⟩ := List.findSome?_eq_some_iff.mp hfirst
    have hreduce := e.reduceChunk_order chunk
    rw [horder, Evaluator.inOrder_first hearlier hs] at hreduce
    refine ⟨fun c left d h => ?_, earlier, s, later, err, horder, hearlier, hs, hreduce⟩
    rw [hreduce, Eval.bind_apply] at h
    cases hc : e.reductions earlier chunk.zipIdx c <;> rw [hc] at h <;> cases h
  · exact fun ss c err d => Evaluator.reduce_of_reductions

/-- `x = 2 ** 3` lacks nothing; in `- 2 ** 3` the power is computed before the sign is refused. -/
theorem missing_operands_after_power :
    let m : Machine := { patience := 0 }
    let e := m.evaluator m.evalTerm
    let power : List Operand :=
      [.source (.literal (some 2.0)), .source (.op .pow), .source (.literal (some 3.0))]
    let assignment := .source (.ident "x") :: .source (.op .assign) :: power
    let sign := .source (.op .sub) :: power
    (∀ s ∈ order assignment, s.missing = none) ∧
    e.reduceChunk assignment = e.reductions (order assignment) assignment.zipIdx >>=
      (fun rest => pure (rest.map Prod.fst)) ∧
    (∃ s ∈ order sign, s.missing ≠ none) ∧ (∀ c left d, e.reduceChunk sign c ≠ .done left d) ∧
    e.reduceChunk sign = e.reductions [⟨2, .pow, none⟩] sign.zipIdx >>=
      (fun _ => Eval.fail (.missingLeftOperand .sub)) := by
  intro m e power assignment sign
  have hassignment : order assignment = [⟨3, .pow, none⟩, ⟨1, .assign, none⟩] := rfl
  have hsign : order sign = [⟨2, .pow, none⟩, ⟨0, .sub, some (.missingLeftOperand .sub)⟩] := rfl
  have hready : ∀ s ∈ order assignment, s.missing = none := by simp [hassignment]
  have hlacks : ∃ s ∈ order sign, s.missing ≠ none := by simp [hsign]
  obtain ⟨-, hreduce, -, -⟩ := missing_operands_exact e assignment
  obtain ⟨-, -, hfail, -⟩ := missing_operands_exact e sign
  obtain ⟨hnever, earlier, s, later, err, horder, hearlier, hs, hreport⟩ := hfail hlacks
  refine ⟨hready, hreduce hready, hlacks, hnever, ?_⟩
  rw [hsign] at horder
  rcases earlier with _ | ⟨r, _ | ⟨_, _ | _⟩⟩
  · cases horder
    cases hs
  · cases horder
    cases hs
    exact hreport
  · cases horder
  · cases horder

end Bracket
