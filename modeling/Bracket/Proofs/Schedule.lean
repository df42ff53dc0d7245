import Mathlib.Data.List.Chain
import Mathlib.Data.List.Perm.Subperm
import Bracket.Proofs.Splicing

/-!
# Bracket.Proofs.Schedule

Which terms of a list are evaluated, and in which order, told by their positions in the list.

The chunks are reduced from left to right. Each turn takes the last operator of the tightest tier
and evaluates its operands, the left one first; an assignment evaluates its right operand only. When
all chunks are reduced, what no operator has consumed is evaluated from left to right. The order does
not depend on values, so it can be told from the list alone (`schedule`).

* `nodup_schedule`: no position comes twice, and no operator.
* `mem_schedule_iff`: where no operator lacks what it needs, every operand comes, but for the names
  that are assigned to.

That evaluation keeps to the schedule is in `Bracket.Proofs.ScheduleCorrect`.
-/

namespace Bracket

/-- A term of the list at its position, or the result of an operator. -/
inductive Spot where
  | term (position : Nat) (t : Term)
  | result

namespace Spot

def operand : Spot → Operand
  | .term _ t => .source t
  | .result => .reduced none

def op? (x : Spot) : Option Op := x.operand.op?

def isName : Spot → Bool
  | .term _ (.ident _) => true
  | _ => false

/-- The position that is evaluated when the operand is. -/
def visits : Spot → List Nat
  | .term i t => if t.op?.isSome then [] else [i]
  | .result => []

def isComma (x : Spot) : Bool := x.op? == some .comma

end Spot

/-! ## The schedule -/

/-- The positions that are evaluated, in order, and what is left of the chunks; nothing is if an
operator lacks an operand or a target. -/
structure Plan where
  visits : List Nat
  left : Option (List Spot)

namespace Plan

def stuck : Plan := ⟨[], none⟩

/-- Evaluates some positions first. -/
def after (visits : List Nat) (p : Plan) : Plan := ⟨visits ++ p.visits, p.left⟩

end Plan

/-- The operands that an operator evaluates, if it can be reduced. -/
def operands? (op : Op) (left right : Spot) : Option (List Nat) :=
  if op = .assign then if left.isName then some right.visits else none
  else some (left.visits ++ right.visits)

/-- Turn after turn: the last operator of the tightest tier first. -/
def planChunk (chunk : List Spot) : Plan :=
  match turn (chunk.map Spot.operand) with
  | some .finished => ⟨[], some chunk⟩
  | some (.reduce op index) =>
    match chunk[index - 1]?, chunk[index + 1]? with
    | some left, some right =>
      match operands? op left right with
      | some visits =>
        match _h : splice? chunk index .result with
        | some rest => (planChunk rest).after visits
        | none => .stuck
      | none => .stuck
    | _, _ => .stuck
  | _ => .stuck
termination_by chunk.length
decreasing_by exact length_lt_of_splice? _h

/-- Chunk after chunk, up to one that cannot be reduced. -/
def planChunks : List (List Spot) → Plan
  | [] => ⟨[], some []⟩
  | chunk :: others =>
    match (planChunk chunk).left with
    | none => planChunk chunk
    | some left =>
      let later := planChunks others
      ⟨(planChunk chunk).visits ++ later.visits, later.left.map (left ++ ·)⟩

def spotsFrom (i : Nat) (g : Group) : List Spot :=
  (g.zipIdx i).map fun p => .term p.2 p.1

/-- The chunks between the commas. -/
def spotChunks (g : Group) : List (List Spot) := (spotsFrom 0 g).splitOnP Spot.isComma

def plan (g : Group) : Plan := planChunks (spotChunks g)

/-- The positions of a list in the order in which they are evaluated: those that operators consume,
and then those that none does. -/
def schedule (g : Group) : List Nat :=
  (plan g).visits ++ ((plan g).left.getD []).flatMap Spot.visits

/-- The position holds an operand: no operator, and no name directly left of an `=`. -/
def IsOperand (g : Group) (i : Nat) : Prop :=
  ∃ t, g[i]? = some t ∧ t.op? = none ∧
    ¬ ((∃ name, t = .ident name) ∧ g[i + 1]?.bind Term.op? = some .assign)

/-! ## What a plan is made of -/

theorem Spot.visits_result : Spot.result.visits = [] := rfl

theorem Spot.visits_of_op {x : Spot} {op : Op} (h : x.op? = some op) : x.visits = [] := by
  cases x with
  | term i t => simp [visits, show t.op? = some op from h]
  | result => rfl

theorem Spot.exists_of_isName {x : Spot} (h : x.isName = true) :
    ∃ i name, x = .term i (.ident name) := by
  unfold isName at h
  split at h
  · exact ⟨_, _, rfl⟩
  · cases h

theorem Spot.op?_of_isName {x : Spot} (h : x.isName = true) : x.op? = none := by
  obtain ⟨i, name, rfl⟩ := exists_of_isName h
  rfl

/-- Everything a plan can be. -/
inductive Planned : List Spot → Plan → Prop where
  | finished {chunk : List Spot} : Clear Tier.all (chunk.map Spot.operand) →
      Planned chunk ⟨[], some chunk⟩
  | missing {chunk : List Spot} {e : RuntimeError} :
      turn (chunk.map Spot.operand) = some (.missing e) → Planned chunk .stuck
  | noTarget {a b : List Spot} {left x right : Spot} :
      turn ((a ++ left :: x :: right :: b).map Spot.operand) =
        some (.reduce .assign (a.length + 1)) →
      left.isName = false → Planned (a ++ left :: x :: right :: b) .stuck
  | reduce {a b : List Spot} {left x right : Spot} {op : Op} {visits : List Nat} {p : Plan} :
      turn ((a ++ left :: x :: right :: b).map Spot.operand) =
        some (.reduce op (a.length + 1)) →
      left.op? = none → x.op? = some op → right.op? = none →
      operands? op left right = some visits → Planned (a ++ .result :: b) p →
      Planned (a ++ left :: x :: right :: b) (p.after visits)

theorem planned (chunk : List Spot) : Planned chunk (planChunk chunk) := by
  induction hlength : chunk.length using Nat.strongRecOn generalizing chunk with
  | ind n ih =>
    obtain ⟨t, ht, hturns⟩ := turn_turns (chunk.map Spot.operand)
    rw [planChunk, ht]
    generalize hoperands : chunk.map Spot.operand = operands at hturns
    cases hturns with
    | finished hclear =>
      rw [← hoperands] at hclear
      exact .finished hclear
    | missing herr => exact .missing ht
    | @reduce a' b' left' x' right' op tier hleft hx hright =>
      obtain ⟨a, fromLeft, rfl, rfl, hfromLeft⟩ := List.map_eq_append_iff.mp hoperands
      obtain ⟨left, fromOp, rfl, rfl, hfromOp⟩ := List.map_eq_cons_iff.mp hfromLeft
      obtain ⟨x, fromRight, rfl, rfl, hfromRight⟩ := List.map_eq_cons_iff.mp hfromOp
      obtain ⟨right, b, rfl, rfl, rfl⟩ := List.map_eq_cons_iff.mp hfromRight
      have hindex : (a.map Spot.operand).length = a.length := List.length_map _
      have hleft? : (a ++ left :: x :: right :: b)[a.length + 1 - 1]? = some left := by simp
      have hright? : (a ++ left :: x :: right :: b)[a.length + 1 + 1]? = some right := by
        simp [Nat.add_assoc]
      rw [hindex] at ht ⊢
      simp only [hleft?, hright?]
      cases hoperands? : operands? op left right with
      | some visits =>
        simp only
        split
        · rename_i rest hrest
          rw [splice?_eq] at hrest
          cases hrest
          have hx := (Tier.op?_eq_some_iff.mp hx).1
          refine .reduce ht hleft hx hright hoperands? (ih _ ?_ _ rfl)
          simp only [← hlength, List.length_append, List.length_cons]
          omega
        · rename_i hrest
          rw [splice?_eq] at hrest
          cases hrest
      | none =>
        unfold operands? at hoperands?
        split at hoperands?
        · rename_i hassign
          subst hassign
          refine .noTarget ht ?_
          simpa using hoperands?
        · cases hoperands?

/-! ## No position twice -/

theorem operands?_sublist {op : Op} {left right : Spot} {visits : List Nat}
    (h : operands? op left right = some visits) :
    visits.Sublist (left.visits ++ right.visits) := by
  unfold operands? at h
  split at h
  · split at h
    · cases h
      exact List.sublist_append_right _ _
    · cases h
  · cases h
    exact List.Sublist.refl _

theorem Planned.subperm {chunk : List Spot} {p : Plan} (h : Planned chunk p) :
    (p.visits ++ (p.left.getD []).flatMap Spot.visits).Subperm (chunk.flatMap Spot.visits) := by
  induction h with
  | finished => exact List.Subperm.refl _
  | missing => exact List.nil_subperm
  | noTarget => exact List.nil_subperm
  | @reduce a b left x right op visits p _ _ hx _ hoperands _ ih =>
    have hvisits := (operands?_sublist hoperands).subperm.append ih
    simp only [Plan.after, List.flatMap_append, List.flatMap_cons, Spot.visits_of_op hx,
      Spot.visits_result, List.nil_append, List.append_assoc] at hvisits ⊢
    have hperm := List.perm_append_comm_assoc (left.visits ++ right.visits)
      (a.flatMap Spot.visits) (b.flatMap Spot.visits)
    simp only [List.append_assoc] at hperm
    exact hvisits.trans hperm.subperm

theorem planChunks_subperm (chunks : List (List Spot)) :
    ((planChunks chunks).visits ++ ((planChunks chunks).left.getD []).flatMap Spot.visits).Subperm
      (chunks.flatMap fun chunk => chunk.flatMap Spot.visits) := by
  induction chunks with
  | nil => exact List.Subperm.refl _
  | cons chunk others ih =>
    have hchunk := (planned chunk).subperm
    rw [List.flatMap_cons, planChunks]
    cases hleft : (planChunk chunk).left with
    | none =>
      rw [hleft] at hchunk
      simp only [hleft]
      exact hchunk.trans (List.sublist_append_left _ _).subperm
    | some left =>
      rw [hleft] at hchunk
      refine List.Subperm.trans ?_ (hchunk.append ih)
      simp only [Option.getD_some]
      cases (planChunks others).left with
      | none =>
        -- what the chunk has left is never reached
        simp only [Option.map_none, Option.getD_none, List.flatMap_nil, List.append_nil]
        exact ((List.sublist_append_left _ _).append (List.Sublist.refl _)).subperm
      | some rest =>
        simp only [Option.map_some, Option.getD_some, List.flatMap_append, List.append_assoc]
        exact (List.perm_append_comm_assoc _ _ _).append_left _ |>.subperm

/-- Cutting at the commas loses nothing that is evaluated. -/
theorem flatMap_visits_splitOnP (xs : List Spot) :
    ((xs.splitOnP Spot.isComma).flatMap fun chunk => chunk.flatMap Spot.visits) =
      xs.flatMap Spot.visits := by
  induction xs with
  | nil => rfl
  | cons x xs ih =>
    rw [List.splitOnP_cons_eq_if_modifyHead, List.flatMap_cons, ← ih]
    split
    · rename_i hx
      rw [Spot.visits_of_op (beq_iff_eq.mp hx)]
      rfl
    · obtain ⟨chunk, others, hchunks⟩ := List.exists_cons_of_ne_nil
        (List.splitOnP_ne_nil Spot.isComma xs)
      simp only [hchunks, List.modifyHead_cons, List.flatMap_cons, List.append_assoc]

theorem spotsFrom_cons (i : Nat) (t : Term) (g : Group) :
    spotsFrom i (t :: g) = .term i t :: spotsFrom (i + 1) g := rfl

theorem mem_visits_iff {x : Spot} {i : Nat} :
    i ∈ x.visits ↔ ∃ t, x = .term i t ∧ t.op? = none := by
  cases x with
  | term j t =>
    cases hop : t.op? with
    | none => simp [Spot.visits, hop, eq_comm]
    | some op => simp [Spot.visits, hop]
  | result => simp [Spot.visits]

theorem visits_spotsFrom_sublist (g : Group) :
    ∀ i, ((spotsFrom i g).flatMap Spot.visits).Sublist (List.range' i g.length) := by
  induction g with
  | nil => exact fun i => List.Sublist.refl _
  | cons t g ih =>
    intro i
    rw [spotsFrom_cons, List.flatMap_cons, List.length_cons, List.range'_succ]
    have hvisits : (Spot.term i t).visits.Sublist [i] := by
      simp only [Spot.visits]
      split
      · exact List.nil_sublist _
      · exact List.Sublist.refl _
    exact hvisits.append (ih (i + 1))

theorem schedule_subperm (g : Group) :
    (schedule g).Subperm ((spotsFrom 0 g).flatMap Spot.visits) := by
  have h := planChunks_subperm (spotChunks g)
  rwa [spotChunks, flatMap_visits_splitOnP] at h

theorem nodup_schedule (g : Group) : (schedule g).Nodup := by
  obtain ⟨positions, hperm, hsublist⟩ := schedule_subperm g
  have hnodup := (hsublist.trans (visits_spotsFrom_sublist g 0)).nodup List.nodup_range'
  exact hperm.nodup_iff.mp hnodup

theorem op?_of_mem_schedule {g : Group} {i : Nat} (h : i ∈ schedule g) :
    ∃ t, g[i]? = some t ∧ t.op? = none := by
  have hmem := (schedule_subperm g).subset h
  obtain ⟨x, hx, hi⟩ := List.mem_flatMap.mp hmem
  obtain ⟨t, hxt, hop⟩ := mem_visits_iff.mp hi
  obtain ⟨⟨u, j⟩, hu, hxu⟩ := List.mem_map.mp hx
  cases hxu.trans hxt
  exact ⟨u, List.mem_zipIdx_iff_getElem?.mp hu, hop⟩

/-! ## No operand left out -/

/-- The first spot is assigned to. -/
def Spot.isTarget (x : Spot) (rest : List Spot) : Bool :=
  x.isName && rest.head?.bind Spot.op? == some .assign

/-- The positions of the operands that are no targets. -/
def needed : List Spot → List Nat
  | [] => []
  | x :: rest => (if x.isTarget rest then [] else x.visits) ++ needed rest

/-- In front of every `=` stands a name. -/
def Named (chunk : List Spot) : Prop :=
  chunk.IsChain fun x y => y.op? = some .assign → x.isName = true

theorem Spot.isTarget_cons {x y : Spot} (h : y.op? ≠ some .assign) (rest : List Spot) :
    x.isTarget (y :: rest) = false := by
  simp [isTarget, h]

theorem needed_append {y : Spot} (h : y.op? ≠ some .assign) (a b : List Spot) :
    needed (a ++ y :: b) = needed a ++ needed (y :: b) := by
  induction a with
  | nil => rfl
  | cons x a ih =>
    have hhead : x.isTarget (a ++ y :: b) = x.isTarget a := by
      cases a with
      | nil => simp [Spot.isTarget, h]
      | cons z a => rfl
    rw [List.cons_append, needed, hhead, ih, ← List.append_assoc]
    rfl

theorem needed_of_no_assign {chunk : List Spot} (h : ∀ x ∈ chunk, x.op? ≠ some .assign) :
    needed chunk = chunk.flatMap Spot.visits := by
  induction chunk with
  | nil => rfl
  | cons x chunk ih =>
    obtain ⟨-, hchunk⟩ := List.forall_mem_cons.mp h
    have hhead : x.isTarget chunk = false := by
      cases chunk with
      | nil => simp [Spot.isTarget]
      | cons y chunk => exact Spot.isTarget_cons (hchunk y List.mem_cons_self) chunk
    rw [needed, hhead, ih hchunk]
    rfl

theorem named_of_no_assign {chunk : List Spot} (h : ∀ x ∈ chunk, x.op? ≠ some .assign) :
    Named chunk := by
  induction chunk with
  | nil => exact .nil
  | cons x chunk ih =>
    obtain ⟨-, hchunk⟩ := List.forall_mem_cons.mp h
    refine List.isChain_cons.mpr ⟨fun y hy hop => ?_, ih hchunk⟩
    exact absurd hop (hchunk y (List.mem_of_mem_head? hy))

theorem Named.cons_of_result {a b : List Spot} {left x right : Spot} {op : Op}
    (h : Named (a ++ .result :: b)) (hleft : left.op? = none) (hx : x.op? = some op)
    (hright : right.op? = none) (htarget : op = .assign → left.isName = true) :
    Named (a ++ left :: x :: right :: b) := by
  obtain ⟨ha, hb, -⟩ := List.isChain_append.mp h
  obtain ⟨hresult, hb⟩ := List.isChain_cons.mp hb
  refine List.isChain_append.mpr ⟨ha, ?_, ?_⟩
  · refine List.isChain_cons_cons.mpr ⟨fun hop => ?_, ?_⟩
    · rw [hx] at hop
      exact htarget (Option.some.inj hop)
    refine List.isChain_cons_cons.mpr ⟨fun hop => ?_, ?_⟩
    · rw [hright] at hop
      cases hop
    refine List.isChain_cons.mpr ⟨fun y hy hop => ?_, hb⟩
    cases hresult y hy hop
  · intro y _ z hz hop
    cases hz
    rw [hleft] at hop
    cases hop

theorem needed_reduce {a b : List Spot} {left x right : Spot} {op : Op} {visits : List Nat}
    (hnamed : Named (a ++ .result :: b)) (hleft : left.op? = none) (hx : x.op? = some op)
    (hright : right.op? = none) (hoperands : operands? op left right = some visits) :
    needed (a ++ left :: x :: right :: b) = needed a ++ (visits ++ needed b) := by
  have hnone : ∀ {y : Spot}, y.op? = none → y.op? ≠ some .assign := by
    intro y hy
    rw [hy]
    exact nofun
  -- what stands behind the result is no `=`, for a result is no name
  have hb : right.isTarget b = false := by
    obtain ⟨-, hb, -⟩ := List.isChain_append.mp hnamed
    obtain ⟨hresult, -⟩ := List.isChain_cons.mp hb
    cases b with
    | nil => simp [Spot.isTarget]
    | cons y b =>
      refine Spot.isTarget_cons (fun hop => ?_) b
      cases hresult y rfl hop
  have hvisits : (if left.isTarget (x :: right :: b) then [] else left.visits) ++ right.visits =
      visits := by
    have htarget : left.isTarget (x :: right :: b) = (left.isName && op == .assign) := by
      simp [Spot.isTarget, hx]
    unfold operands? at hoperands
    split at hoperands
    · rename_i hassign
      split at hoperands
      · rename_i hname
        cases hoperands
        simp [htarget, hassign, hname]
      · cases hoperands
    · rename_i hassign
      cases hoperands
      simp [htarget, hassign]
  rw [needed_append (hnone hleft), needed, needed, needed, hb,
    Spot.isTarget_cons (hnone hright), Spot.visits_of_op hx, ← hvisits]
  simp

theorem Planned.complete {chunk left : List Spot} {p : Plan} (h : Planned chunk p)
    (hleft : p.left = some left) :
    Named chunk ∧ (p.visits ++ left.flatMap Spot.visits).Perm (needed chunk) := by
  induction h with
  | finished hclear =>
    cases hleft
    have hassign : ∀ x ∈ left, x.op? ≠ some .assign := by
      intro x hx hop
      have hnone := hclear x.operand (List.mem_map_of_mem hx) .assignment (by decide)
      rw [Tier.op?_eq_some_iff.mpr ⟨hop, rfl⟩] at hnone
      cases hnone
    refine ⟨named_of_no_assign hassign, ?_⟩
    rw [needed_of_no_assign hassign]
    exact .refl _
  | missing => cases hleft
  | noTarget => cases hleft
  | @reduce a b l x r op visits p _ hl hx hr hoperands _ ih =>
    obtain ⟨hnamed, hperm⟩ := ih hleft
    have htarget : op = .assign → l.isName = true := by
      rintro rfl
      simpa [operands?, Option.isSome_iff_exists] using congrArg Option.isSome hoperands
    refine ⟨hnamed.cons_of_result hl hx hr htarget, ?_⟩
    rw [needed_reduce hnamed hl hx hr hoperands]
    rw [needed_append (y := .result) nofun] at hperm
    simp only [Plan.after, List.append_assoc]
    refine (hperm.append_left visits).trans ?_
    exact List.perm_append_comm_assoc _ _ _

theorem planChunks_complete {chunks : List (List Spot)} {left : List Spot}
    (h : (planChunks chunks).left = some left) :
    ((planChunks chunks).visits ++ left.flatMap Spot.visits).Perm (chunks.flatMap needed) := by
  induction chunks generalizing left with
  | nil =>
    cases h
    exact .refl _
  | cons chunk others ih =>
    rw [planChunks] at h ⊢
    cases hchunk : (planChunk chunk).left with
    | none =>
      rw [hchunk] at h
      cases hchunk.symm.trans h
    | some first =>
      rw [hchunk] at h
      obtain ⟨rest, hrest, rfl⟩ := Option.map_eq_some_iff.mp h
      have hfirst := ((planned chunk).complete hchunk).2
      refine List.Perm.trans ?_ (hfirst.append (ih hrest))
      simp only [List.flatMap_append, List.append_assoc]
      exact (List.perm_append_comm_assoc _ _ _).append_left _

/-- No chunk ends between a name and its `=`. -/
theorem flatMap_needed_splitOnP (xs : List Spot) :
    (xs.splitOnP Spot.isComma).flatMap needed = needed xs := by
  induction xs with
  | nil => rfl
  | cons x xs ih =>
    rw [List.splitOnP_cons_eq_if_modifyHead, needed, ← ih]
    split
    · rename_i hx
      have hname : x.isName = false := by
        rw [← Bool.not_eq_true]
        intro hname
        have hop := Spot.op?_of_isName hname
        rw [beq_iff_eq.mp hx] at hop
        cases hop
      rw [Spot.isTarget, hname, Spot.visits_of_op (beq_iff_eq.mp hx)]
      rfl
    · obtain ⟨chunk, others, hchunks⟩ := List.exists_cons_of_ne_nil
        (List.splitOnP_ne_nil Spot.isComma xs)
      have hhead : x.isTarget chunk = x.isTarget xs := by
        cases xs with
        | nil =>
          cases hchunks
          rfl
        | cons y ys =>
          rw [List.splitOnP_cons_eq_if_modifyHead] at hchunks
          split at hchunks
          · rename_i hy
            cases hchunks
            simp [Spot.isTarget, beq_iff_eq.mp hy]
          · obtain ⟨c, cs, hcs⟩ := List.exists_cons_of_ne_nil
              (List.splitOnP_ne_nil Spot.isComma ys)
            rw [hcs] at hchunks
            cases hchunks
            rfl
      simp only [hchunks, List.modifyHead_cons, List.flatMap_cons, needed, hhead,
        List.append_assoc]

theorem head?_spotsFrom (i : Nat) (g : Group) :
    (spotsFrom i g).head?.bind Spot.op? = g.head?.bind Term.op? := by
  cases g <;> rfl

theorem isOperand_zero {t : Term} {g : Group} :
    IsOperand (t :: g) 0 ↔
      t.op? = none ∧ ¬ ((∃ name, t = .ident name) ∧ g.head?.bind Term.op? = some .assign) := by
  simp [IsOperand, List.head?_eq_getElem?]

theorem isOperand_succ {t : Term} {g : Group} {i : Nat} :
    IsOperand (t :: g) (i + 1) ↔ IsOperand g i := by
  simp [IsOperand]

theorem isName_term {i : Nat} {t : Term} : (Spot.term i t).isName ↔ ∃ name, t = .ident name := by
  cases t <;> simp [Spot.isName]

theorem mem_needed_spotsFrom {g : Group} {j : Nat} :
    ∀ {i}, j ∈ needed (spotsFrom i g) ↔ i ≤ j ∧ IsOperand g (j - i) := by
  induction g with
  | nil => simp [spotsFrom, needed, IsOperand]
  | cons t g ih =>
    intro i
    have htarget : (Spot.term i t).isTarget (spotsFrom (i + 1) g) = true ↔
        (∃ name, t = .ident name) ∧ g.head?.bind Term.op? = some .assign := by
      rw [Spot.isTarget, head?_spotsFrom, Bool.and_eq_true, isName_term, beq_iff_eq]
    have hfirst : j ∈ (if (Spot.term i t).isTarget (spotsFrom (i + 1) g) then []
        else (Spot.term i t).visits) ↔ j = i ∧ IsOperand (t :: g) 0 := by
      rw [isOperand_zero, ← htarget]
      split
      · rename_i h
        simp [h]
      · rename_i h
        rw [mem_visits_iff]
        constructor
        · rintro ⟨u, heq, hop⟩
          cases heq
          exact ⟨rfl, hop, h⟩
        · rintro ⟨rfl, hop, -⟩
          exact ⟨t, rfl, hop⟩
    rw [spotsFrom_cons, needed, List.mem_append, hfirst, ih]
    constructor
    · rintro (⟨rfl, h⟩ | ⟨hle, h⟩)
      · exact ⟨Nat.le_refl _, by rwa [Nat.sub_self]⟩
      · have hsub : j - i = (j - (i + 1)) + 1 := by omega
        exact ⟨by omega, by rwa [hsub, isOperand_succ]⟩
    · rintro ⟨hle, h⟩
      rcases Nat.eq_or_lt_of_le hle with rfl | hlt
      · exact .inl ⟨rfl, by rwa [Nat.sub_self] at h⟩
      · have hsub : j - i = (j - (i + 1)) + 1 := by omega
        rw [hsub, isOperand_succ] at h
        exact .inr ⟨hlt, h⟩

/-- If every operator has what it needs, the schedule has every operand. -/
theorem mem_schedule_iff {g : Group} {left : List Spot} (h : (plan g).left = some left) {i : Nat} :
    i ∈ schedule g ↔ IsOperand g i := by
  have hperm : ((plan g).visits ++ left.flatMap Spot.visits).Perm (needed (spotsFrom 0 g)) := by
    rw [← flatMap_needed_splitOnP]
    exact planChunks_complete h
  rw [schedule, h, Option.getD_some, hperm.mem_iff, mem_needed_spotsFrom]
  simp

-- `a b + c * d, x = e f`: the product, the sum, the assignment, and then `a` and `f`
example : schedule [.ident "a", .ident "b", .op .add, .ident "c", .op .mul, .ident "d", .op .comma,
    .ident "x", .op .assign, .ident "e", .ident "f"] = [3, 5, 1, 9, 0, 10] := by cbv

end Bracket
