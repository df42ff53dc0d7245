import Bracket.Eval.Run
import Bracket.Proofs.Agree
import Bracket.Proofs.Ensures
import Bracket.Proofs.Schedule

/-!
# Bracket.Proofs.ScheduleCorrect

Evaluating a list of terms keeps to its schedule (`each_operand_once`).

The evaluator is made to log every term of the list that it evaluates, with the states before and
after; this changes nothing else (`Evaluator.terms_logged`). `Performs g f Q positions` says that an
evaluation visits the terms at some positions of the list, one after another, and breaks off only by
failing. A turn looks at operators only, so that the evaluation takes the same turns as the plan
(`turn_of_stands`).
-/

namespace Bracket

variable {σ τ α β : Type}

/-- The outcome for a part of the state. -/
def Outcome.view {ε : Type} (f : σ → τ) : Outcome ε σ α → Outcome ε τ α
  | .done a s => .done a (f s)
  | .failed e s => .failed e (f s)
  | .unfinished => .unfinished

/-- A term that has been evaluated. -/
structure Visit (σ : Type) where
  term : Term
  before : σ
  after : σ

/-- Logs every term that is evaluated, failing or not. -/
def Evaluator.logged (e : Evaluator σ) : Evaluator (σ × List (Visit σ)) where
  term t p := (e.term t p.1).view fun s => (s, p.2 ++ [⟨t, p.1, s⟩])
  assign name v p := (e.assign name v p.1, p.2)
  arithmetic := e.arithmetic

/-- The terms at some positions of a list. -/
def termsAt (g : Group) (positions : List Nat) : List Term := positions.filterMap (g[·]?)

/-- Each visit begins where the one before has ended, as far as `f` can tell. -/
def Seamless (f : σ → τ) (start : τ) : List (Visit σ) → τ → Prop
  | [], last => start = last
  | v :: visits, last => start = f v.before ∧ Seamless f (f v.after) visits last

/-- Between the two states the terms at the positions have been visited, and nothing else has
changed what `f` can tell. -/
def Visited (g : Group) (f : σ → τ) (positions : List Nat) (p q : σ × List (Visit σ)) : Prop :=
  ∃ visits, q.2 = p.2 ++ visits ∧ visits.map Visit.term = termsAt g positions ∧
    Seamless f (f p.1) visits (f q.1)

/-- The evaluation visits the terms at the positions, some of the first of them if it fails. -/
def Performs (g : Group) (f : σ → τ) (Q : α → Prop) (positions : List Nat)
    (x : Eval (σ × List (Visit σ)) α) : Prop :=
  ∀ p, (x p).Ensures (fun a q => Q a ∧ Visited g f positions p q)
    (fun _ q => ∃ first, first <+: positions ∧ Visited g f first p q) True

/-- The spot stands for the operand: the term at its position, or any result. -/
inductive Stands (g : Group) : Spot → Operand → Prop where
  | term {i : Nat} {t : Term} : g[i]? = some t → Stands g (.term i t) (.source t)
  | result (v : Option Float) : Stands g .result (.reduced v)

/-- What the plan leaves stands for what the evaluation leaves. -/
def Leaves (g : Group) (p : Plan) (left : List Operand) : Prop :=
  ∃ spots, p.left = some spots ∧ List.Forall₂ (Stands g) spots left

variable {g : Group} {f : σ → τ}

/-! ## Visits -/

theorem Seamless.append {start middle last : τ} {us vs : List (Visit σ)}
    (hu : Seamless f start us middle) (hv : Seamless f middle vs last) :
    Seamless f start (us ++ vs) last := by
  induction us generalizing start with
  | nil =>
    cases hu
    exact hv
  | cons u us ih => exact ⟨hu.1, ih hu.2⟩

namespace Visited

variable {p q r : σ × List (Visit σ)} {positions later : List Nat}

theorem refl : Visited g f [] p p := ⟨[], (List.append_nil _).symm, rfl, rfl⟩

theorem trans (h : Visited g f positions p q) (h' : Visited g f later q r) :
    Visited g f (positions ++ later) p r := by
  obtain ⟨us, hqs, hus, hu⟩ := h
  obtain ⟨vs, hrs, hvs, hv⟩ := h'
  refine ⟨us ++ vs, ?_, ?_, hu.append hv⟩
  · rw [hrs, hqs, List.append_assoc]
  · rw [List.map_append, hus, hvs, termsAt, termsAt, termsAt, List.filterMap_append]

theorem term {i : Nat} {t : Term} (hi : g[i]? = some t) (s : σ) :
    Visited g f [i] p (s, p.2 ++ [⟨t, p.1, s⟩]) := by
  refine ⟨_, rfl, ?_, rfl, rfl⟩
  simp [termsAt, hi]

end Visited

namespace Performs

variable {Q : α → Prop} {R : β → Prop} {positions later : List Nat}

theorem pure {a : α} (h : Q a) :
    Performs g f Q [] (Pure.pure a : Eval (σ × List (Visit σ)) α) := fun _ => ⟨h, .refl⟩

theorem fail (e : RuntimeError) :
    Performs g f Q [] (Eval.fail e : Eval (σ × List (Visit σ)) α) :=
  fun _ => ⟨[], List.prefix_refl _, .refl⟩

theorem bind {x : Eval (σ × List (Visit σ)) α} {k : α → Eval (σ × List (Visit σ)) β}
    (h : Performs g f Q positions x) (hk : ∀ a, Q a → Performs g f R later (k a)) :
    Performs g f R (positions ++ later) (x >>= k) := by
  intro p
  -- what `x` alone ensures when it fails is weakened to the positions of both
  refine ((h p).imp (fun _ _ h => h) ?_).andThen ?_
  · rintro _ q ⟨first, hprefix, hq⟩
    exact ⟨first, hprefix.trans (List.prefix_append _ _), hq⟩
  rintro a q ⟨ha, hq⟩
  refine (hk a ha q).imp ?_ ?_
  · rintro b r ⟨hb, hr⟩
    exact ⟨hb, hq.trans hr⟩
  · rintro _ r ⟨first, hprefix, hr⟩
    exact ⟨positions ++ first, (List.prefix_append_right_inj _).mpr hprefix, hq.trans hr⟩

/-- What follows visits nothing. -/
theorem map {x : Eval (σ × List (Visit σ)) α} {k : α → Eval (σ × List (Visit σ)) β}
    (h : Performs g f Q positions x) (hk : ∀ a, Q a → Performs g f R [] (k a)) :
    Performs g f R positions (x >>= k) := by
  have hbind := h.bind hk
  rwa [List.append_nil] at hbind

theorem and {Q' : α → Prop} {x : Eval (σ × List (Visit σ)) α} (h : Performs g f Q positions x)
    (h' : ∀ p a q, x p = .done a q → Q' a) :
    Performs g f (fun a => Q a ∧ Q' a) positions x := by
  intro p
  have hp := h p
  cases hx : x p with
  | done a q =>
    rw [hx] at hp
    exact ⟨⟨hp.1, h' p a q hx⟩, hp.2⟩
  | failed e q =>
    rw [hx] at hp
    exact hp
  | unfinished => trivial

end Performs

/-! ## Operators -/

theorem Stands.op? {x : Spot} {y : Operand} (h : Stands g x y) : y.op? = x.op? := by
  cases h <;> rfl

namespace Evaluator

variable {e : Evaluator σ}

theorem operand_performs {x : Spot} {y : Operand} (h : Stands g x y) (hop : x.op? = none) :
    Performs g f (fun _ => True) x.visits (e.logged.operand y) := by
  cases h with
  | @term i t hi =>
    have hvisits : (Spot.term i t).visits = [i] := by
      simp [Spot.visits, show t.op? = none from hop]
    rw [hvisits]
    intro p
    show ((e.term t p.1).view _).Ensures _ _ _
    cases e.term t p.1 with
    | done v s => exact ⟨trivial, .term hi s⟩
    | failed err s => exact ⟨[i], List.prefix_refl _, .term hi s⟩
    | unfinished => trivial
  | result v => exact .pure trivial

theorem number_performs {x : Spot} {y : Operand} (h : Stands g x y) (hop : x.op? = none)
    (op : Op) : Performs g f (fun _ => True) x.visits (e.logged.number op y) := by
  refine (operand_performs h hop).map fun v _ => ?_
  cases v.asNumber op with
  | ok x => exact .pure trivial
  | error err => exact .fail err

theorem reduce_performs (hassign : ∀ name v s, f (e.assign name v s) = f s) {op : Op}
    {left right : Spot} {y z : Operand} {positions : List Nat}
    (hoperands : operands? op left right = some positions) (hy : Stands g left y)
    (hz : Stands g right z) (hleft : left.op? = none) (hright : right.op? = none) :
    Performs g f (fun _ => True) positions (e.logged.reduce op y z) := by
  unfold operands? at hoperands
  unfold reduce
  split at hoperands
  · rename_i hop
    rw [if_pos hop]
    split at hoperands
    · rename_i hname
      cases hoperands
      obtain ⟨i, name, rfl⟩ := Spot.exists_of_isName hname
      cases hy
      refine (operand_performs hz hright).map fun v _ => ?_
      exact fun p => ⟨trivial, [], (List.append_nil _).symm, rfl, (hassign name v p.1).symm⟩
    · cases hoperands
  · rename_i hop
    rw [if_neg hop]
    cases hoperands
    refine (number_performs hy hleft op).bind fun x _ => ?_
    refine (number_performs hz hright op).map fun y _ => ?_
    split
    · exact .pure trivial
    · exact .fail _

theorem reduce_no_target {left : Spot} {y z : Operand} (h : Stands g left y)
    (hname : left.isName = false) :
    e.logged.reduce .assign y z = Eval.fail .assignmentToNonIdent := by
  unfold reduce assignment
  rw [if_pos rfl]
  split
  · cases h
    cases hname
  · rfl

end Evaluator

/-! ## Chunks -/

theorem Tier.last?_congr {tier : Tier} {chunk chunk' : List Operand}
    (h : chunk.map Operand.op? = chunk'.map Operand.op?) : tier.last? chunk = tier.last? chunk' := by
  have hlast : ∀ l : List Operand, tier.last? l =
      (l.map Operand.op?).zipIdx.reverse.findSome? fun p =>
        (p.1.filter (·.tier? = some tier)).map fun op => (p.2, op) := by
    intro l
    rw [List.zipIdx_map, ← List.map_reverse, List.findSome?_map, Tier.last?]
    congr 1
    funext p
    simp only [Function.comp, Tier.op?, Prod.map]
    cases p.1.op? with
    | none => rfl
    | some op => simp only [Option.filter_some, decide_eq_true_eq, id]
  rw [hlast, hlast, h]

/-- A turn looks at operators only. -/
theorem turn_congr {chunk chunk' : List Operand}
    (h : chunk.map Operand.op? = chunk'.map Operand.op?) : turn chunk = turn chunk' := by
  have hnext : nextOperator? chunk = nextOperator? chunk' := by
    unfold nextOperator?
    congr 1
    funext tier
    exact Tier.last?_congr h
  have hget : ∀ i : Nat, chunk[i]?.map Operand.op? = chunk'[i]?.map Operand.op? := by
    intro i
    rw [← List.getElem?_map, ← List.getElem?_map, h]
  unfold turn
  rw [hnext]
  split
  · rfl
  · rename_i index op _
    have hleft := hget (index - 1)
    have hright := hget (index + 1)
    split
    · rfl
    cases hl : chunk[index - 1]? with
    | none =>
      rw [hl, Option.map_none, eq_comm, Option.map_eq_none_iff] at hleft
      rw [hleft]
    | some left =>
      rw [hl, Option.map_some, eq_comm, Option.map_eq_some_iff] at hleft
      obtain ⟨left', hl', hleft⟩ := hleft
      simp only [hl', hleft]
      cases hr : chunk[index + 1]? with
      | none =>
        rw [hr, Option.map_none, eq_comm, Option.map_eq_none_iff] at hright
        rw [hright]
      | some right =>
        rw [hr, Option.map_some, eq_comm, Option.map_eq_some_iff] at hright
        obtain ⟨right', hr', hright⟩ := hright
        simp only [hr', hright]

theorem turn_of_stands {chunk : List Spot} {operands : List Operand}
    (h : List.Forall₂ (Stands g) chunk operands) :
    turn operands = turn (chunk.map Spot.operand) := by
  refine turn_congr ?_
  rw [List.map_map]
  induction h with
  | nil => rfl
  | cons hx _ ih => rw [List.map_cons, List.map_cons, ih, hx.op?]; rfl

theorem forall₂_append_left {R : α → β → Prop} {a b : List α} {c : List β}
    (h : List.Forall₂ R (a ++ b) c) :
    ∃ u v, List.Forall₂ R a u ∧ List.Forall₂ R b v ∧ c = u ++ v := by
  have ha := List.forall₂_take a.length h
  have hb := List.forall₂_drop a.length h
  rw [List.take_left] at ha
  rw [List.drop_left] at hb
  exact ⟨_, _, ha, hb, (List.take_append_drop _ _).symm⟩

/-- An operator and its neighbours in the chunk stand for an operator and its neighbours. -/
theorem stands_around {a b : List Spot} {left x right : Spot} {operands : List Operand}
    (h : List.Forall₂ (Stands g) (a ++ left :: x :: right :: b) operands) :
    ∃ u v y w z, operands = u ++ y :: w :: z :: v ∧ u.length = a.length ∧
      List.Forall₂ (Stands g) a u ∧ Stands g left y ∧ Stands g right z ∧
      List.Forall₂ (Stands g) b v := by
  obtain ⟨u, rest, ha, hrest, rfl⟩ := forall₂_append_left h
  rcases hrest with _ | ⟨hy, _ | ⟨-, _ | ⟨hz, hb⟩⟩⟩
  exact ⟨u, _, _, _, _, rfl, ha.length_eq.symm, ha, hy, hz, hb⟩

namespace Evaluator

variable {e : Evaluator σ}

theorem splicing_performs (hassign : ∀ name v s, f (e.assign name v s) = f s)
    {chunk : List Spot} {p : Plan} (h : Planned chunk p) :
    ∀ operands, List.Forall₂ (Stands g) chunk operands →
      Performs g f (fun found => ∃ left, found = some left ∧ Leaves g p left) p.visits
        (e.logged.splicing operands) := by
  induction h with
  | finished hclear =>
    intro operands hstands
    rw [splicing, turn_of_stands hstands, turn_of_clear hclear]
    exact .pure ⟨operands, rfl, _, rfl, hstands⟩
  | missing hturn =>
    intro operands hstands
    rw [splicing_missing ((turn_of_stands hstands).trans hturn)]
    exact .fail _
  | noTarget hturn hname =>
    intro operands hstands
    rw [← turn_of_stands hstands] at hturn
    obtain ⟨u, v, y, w, z, rfl, hlength, -, hy, -, -⟩ := stands_around hstands
    rw [← hlength] at hturn
    rw [splicing_reduce hturn, reduce_no_target hy hname]
    exact .fail _
  | reduce hturn hleft hx hright hoperands _ ih =>
    intro operands hstands
    rw [← turn_of_stands hstands] at hturn
    obtain ⟨u, v, y, w, z, rfl, hlength, ha, hy, hz, hb⟩ := stands_around hstands
    rw [← hlength] at hturn
    rw [splicing_reduce hturn]
    refine (reduce_performs hassign hoperands hy hz hleft hright).bind fun value _ => ?_
    exact ih _ (List.rel_append ha (.cons (.result value) hb))

theorem reduceChunk_performs (hassign : ∀ name v s, f (e.assign name v s) = f s)
    {chunk : List Spot} {operands : List Operand}
    (hstands : List.Forall₂ (Stands g) chunk operands) :
    Performs g f (Leaves g (planChunk chunk)) (planChunk chunk).visits
      (e.logged.reduceChunk operands) := by
  intro p
  have hsplicing := splicing_performs hassign (planned chunk) operands hstands p
  refine (ensures_reduceChunk hsplicing).imp ?_ fun _ _ h => h
  rintro left q ⟨⟨_, hleft, hleaves⟩, hq⟩
  cases hleft
  exact ⟨hleaves, hq⟩

/-! ## Lists of terms -/

theorem reduceChunks_performs (hassign : ∀ name v s, f (e.assign name v s) = f s)
    {chunks : List (List Spot)} {others : List (List Operand)}
    (hstands : List.Forall₂ (List.Forall₂ (Stands g)) chunks others) :
    Performs g f (Leaves g (planChunks chunks)) (planChunks chunks).visits
      (e.logged.reduceChunks others) := by
  induction hstands with
  | nil => exact .pure ⟨[], rfl, .nil⟩
  | @cons chunk operands chunks others hchunk _ ih =>
    have hfirst := reduceChunk_performs (e := e) hassign hchunk
    rw [planChunks]
    cases hleft : (planChunk chunk).left with
    | none =>
      -- the reduction never gets past the chunk
      refine hfirst.map ?_
      rintro left ⟨spots, hspots, -⟩
      cases hleft.symm.trans hspots
    | some spots =>
      refine hfirst.bind ?_
      rintro left ⟨_, hspots, hforall⟩
      cases hleft.symm.trans hspots
      refine ih.map ?_
      rintro rest ⟨later, hlater, hrest⟩
      refine .pure ⟨spots ++ later, ?_, List.rel_append hforall hrest⟩
      simp only [hlater, Option.map_some]

theorem lastOf_performs {spots : List Spot} {operands : List Operand}
    (hstands : List.Forall₂ (Stands g) spots operands) (hop : ∀ y ∈ operands, y.op? = none) :
    ∀ last, Performs g f (fun _ => True) (spots.flatMap Spot.visits)
      (e.logged.lastOf last operands) := by
  induction hstands with
  | nil => exact fun last => .pure trivial
  | @cons x y spots operands hx _ ih =>
    intro last
    obtain ⟨hy, hoperands⟩ := List.forall_mem_cons.mp hop
    exact (operand_performs hx (hx.op?.symm.trans hy)).bind fun v _ => ih hoperands v

end Evaluator

theorem stands_chunks (h : Group) : ∀ i, g.drop i = h →
    List.Forall₂ (List.Forall₂ (Stands g)) ((spotsFrom i h).splitOnP Spot.isComma) (chunks h) := by
  induction h with
  | nil => exact fun i _ => .cons .nil .nil
  | cons t h ih =>
    intro i hdrop
    have hi : g[i]? = some t := by
      rw [← List.head?_drop, hdrop]
      rfl
    have hrest := ih (i + 1) (by rw [← List.tail_drop, hdrop]; rfl)
    rw [spotsFrom_cons, List.splitOnP_cons_eq_if_modifyHead, chunks]
    have hcomma : (Spot.term i t).isComma = true ↔ t.op? = some .comma := beq_iff_eq
    simp only [hcomma]
    split
    · exact .cons .nil hrest
    · have hsome := List.splitOnP_ne_nil Spot.isComma (spotsFrom (i + 1) h)
      generalize (spotsFrom (i + 1) h).splitOnP Spot.isComma = spots at hrest hsome
      generalize chunks h = others at hrest
      cases hrest with
      | nil => exact absurd rfl hsome
      | cons hfirst hothers => exact .cons (.cons (.term hi) hfirst) hothers

namespace Evaluator

variable {e : Evaluator σ}

theorem terms_performs (hassign : ∀ name v s, f (e.assign name v s) = f s) (g : Group) :
    Performs g f (fun _ => ∃ left, (plan g).left = some left) (schedule g)
      (e.logged.terms g) := by
  have hchunks := reduceChunks_performs (e := e) hassign (stands_chunks g 0 rfl)
  refine (hchunks.and fun p left q h => op?_of_reduceChunks h).bind ?_
  rintro left ⟨⟨spots, hspots, hstands⟩, hop⟩
  have hplan : (plan g).left = some spots := hspots
  rw [hplan, Option.getD_some]
  intro p
  refine (lastOf_performs hstands hop .null p).imp ?_ fun _ _ h => h
  rintro v q ⟨-, hq⟩
  exact ⟨⟨spots, rfl⟩, hq⟩

/-- To log what is evaluated changes nothing else. -/
theorem terms_logged (e : Evaluator σ) (g : Group) (s : σ) (log : List (Visit σ)) :
    (e.logged.terms g (s, log)).view Prod.fst = e.terms g s := by
  have hagree : Evaluator.Agree (fun p s => p.1 = s) (fun _ => False) e.logged e := by
    refine ⟨fun t p s hs => ?_, fun name v p s hs => ?_, rfl⟩
    · cases hs
      show Outcome.Agree _ _ ((e.term t p.1).view _) _
      cases e.term t p.1 with
      | done v s => exact .done rfl
      | failed err s => exact .failed rfl
      | unfinished => exact .unfinished
    · cases hs
      rfl
  have hterms := terms_agree hagree g (s, log) s rfl
  generalize e.logged.terms g (s, log) = o at hterms ⊢
  generalize e.terms g s = o' at hterms ⊢
  cases hterms with
  | done hs => exact congrArg _ hs
  | failed hs => exact congrArg _ hs
  | unfinished => rfl
  | excusedError h => cases h
  | excusedUnfinished h => cases h

end Evaluator

/-- The evaluation of a list visits the terms of its schedule, in that order, and prints what they
print and nothing else. If it succeeds, it visits all of them, which are all the operands of the
list; if it fails, it visits some of the first of them. No position comes twice in the schedule, and
no operator. -/
theorem each_operand_once (m : Machine) (g : Group) (c : Context) :
    let o := (m.evaluator m.evalTerm).logged.terms g (c, [])
    o.view Prod.fst = m.evalTerms g c ∧ (schedule g).Nodup ∧
    (∀ i ∈ schedule g, ∃ t, g[i]? = some t ∧ t.op? = none) ∧
    match o with
    | .done _ (d, visits) =>
      visits.map Visit.term = termsAt g (schedule g) ∧ (∀ i, i ∈ schedule g ↔ IsOperand g i) ∧
      Seamless Context.transcript c.transcript visits d.transcript
    | .failed _ (d, visits) =>
      (∃ first, first <+: schedule g ∧ visits.map Visit.term = termsAt g first) ∧
      Seamless Context.transcript c.transcript visits d.transcript
    | .unfinished => True := by
  refine ⟨Evaluator.terms_logged .., nodup_schedule g, fun i => op?_of_mem_schedule, ?_⟩
  have hterms := Evaluator.terms_performs (e := m.evaluator m.evalTerm) (f := Context.transcript)
    (fun _ _ _ => rfl) g (c, [])
  cases ho : (m.evaluator m.evalTerm).logged.terms g (c, []) with
  | done v p =>
    rw [ho] at hterms
    obtain ⟨⟨left, hleft⟩, visits, hlog, hvisits, hseamless⟩ := hterms
    obtain rfl : p.2 = visits := hlog
    exact ⟨hvisits, fun i => mem_schedule_iff hleft, hseamless⟩
  | failed e p =>
    rw [ho] at hterms
    obtain ⟨first, hprefix, visits, hlog, hvisits, hseamless⟩ := hterms
    obtain rfl : p.2 = visits := hlog
    exact ⟨⟨first, hprefix, hvisits⟩, hseamless⟩
  | unfinished => trivial

end Bracket
