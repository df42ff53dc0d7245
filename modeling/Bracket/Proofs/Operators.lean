import Bracket.Proofs.Ensures
import Bracket.Proofs.StepsCorrect

/-!
# Bracket.Proofs.Operators

Operators are never evaluated, wherever they stand in a tree (`operators_never_evaluated`).

A sweep leaves no operator of its tier behind, and the comma, which is in no tier, has cut the list
before. `Place.Swept` says this of a sweep in the middle: what it has passed holds operators of
looser tiers only. `Config.Proper` carries it through everything that waits, so it holds at every
moment, inside loops and closures too.
-/

namespace Bracket

/-- If the operand is an operator, then one of the tiers. -/
def Operand.Among (tiers : List Tier) (x : Operand) : Prop :=
  ∀ op, x.op? = some op → ∃ tier ∈ tiers, op.tier? = some tier

/-- The operator computes a number. -/
def Op.Computes (op : Op) : Prop := op ≠ .assign ∧ ∃ tier : Tier, op.tier? = some tier

/-- The sweep has left no operator of its tier behind, and earlier ones none of theirs. -/
structure Place.Swept (p : Place) : Prop where
  before : ∀ x ∈ p.before, x.Among (p.tier :: p.looser)
  passed : ∀ x ∈ p.passed, x.Among p.looser
  done : ∀ x ∈ p.done, x.op? = none
  others : ∀ chunk ∈ p.others, ∀ x ∈ chunk, x.Among Tier.all

def Task.Proper : Task → Prop
  | .error e => ∀ op, e ≠ .unexpectedOperator op
  | .term t => t.op? = none
  | .chunks done others =>
    (∀ x ∈ done, x.op? = none) ∧ ∀ chunk ∈ others, ∀ x ∈ chunk, x.Among Tier.all
  | .sweep p => p.Swept
  | .rest _ operands => ∀ x ∈ operands, x.op? = none
  | .value _ | .bracket _ _ => True

def Waiting.Proper : Waiting → Prop
  | .left op y p => op.Computes ∧ y.op? = none ∧ p.Swept
  | .right op _ p => op.Computes ∧ p.Swept
  | .target _ p => p.Swept
  | .operand rest => ∀ x ∈ rest, x.op? = none
  | _ => True

/-- No operator is evaluated now or by what waits. -/
structure Config.Proper (s : Config) : Prop where
  task : s.task.Proper
  waiting : ∀ w ∈ s.waiting, w.Proper

variable {m : Machine} {k : List Waiting} {c : Context}

theorem Operand.among_of_op?_none {x : Operand} (h : x.op? = none) (tiers : List Tier) :
    x.Among tiers := by
  intro op hop
  rw [h] at hop
  cases hop

theorem Operand.op?_of_among_nil {x : Operand} (h : x.Among []) : x.op? = none := by
  cases hop : x.op? with
  | none => rfl
  | some op =>
    obtain ⟨tier, htier, -⟩ := h op hop
    cases htier

/-- What the sweep of a tier goes past is of a looser one. -/
theorem Operand.Among.pass {tier : Tier} {looser : List Tier} {x : Operand}
    (h : x.Among (tier :: looser)) (hx : tier.op? x = none) : x.Among looser := by
  intro op hop
  obtain ⟨tier', hmem, htier'⟩ := h op hop
  rcases List.mem_cons.mp hmem with rfl | hmem
  · rw [Tier.op?_eq_some_iff.mpr ⟨hop, htier'⟩] at hx
    cases hx
  · exact ⟨tier', hmem, htier'⟩

theorem Place.Swept.reduced {p : Place} (h : p.Swept) (v : Option Float) : (p.reduced v).Swept :=
  ⟨h.before, List.forall_mem_cons.mpr ⟨Operand.among_of_op?_none rfl _, h.passed⟩, h.done, h.others⟩

theorem among_of_chunks {g : Group} {chunk : List Operand} (hchunk : chunk ∈ chunks g) :
    ∀ x ∈ chunk, x.Among Tier.all := by
  intro x hx op hop
  obtain ⟨t, -, rfl, hcomma⟩ := mem_chunks hchunk hx
  have hop : t.op? = some op := hop
  rw [hop] at hcomma
  cases op with
  | comma => exact absurd rfl hcomma
  | _ => exact ⟨_, by decide, rfl⟩

/-! ## Lists of terms -/

theorem Operand.task_proper {x : Operand} (h : x.op? = none) : x.task.Proper := by
  cases x with
  | source t => exact h
  | reduced v => trivial

theorem proper_push {w : Waiting} (hw : w.Proper) (hk : ∀ w ∈ k, w.Proper) :
    ∀ w' ∈ w :: k, w'.Proper := List.forall_mem_cons.mpr ⟨hw, hk⟩

theorem error_proper {e : RuntimeError} (he : ∀ op, e ≠ .unexpectedOperator op)
    (hk : ∀ w ∈ k, w.Proper) : (Config.mk (.error e) k c).Proper := ⟨he, hk⟩

namespace Machine

theorem reduceStep_proper {op : Op} {left right : Operand} {p : Place}
    (hop : ∃ tier : Tier, op.tier? = some tier) (hleft : left.op? = none)
    (hright : right.op? = none) (hp : p.Swept) (hk : ∀ w ∈ k, w.Proper) :
    (reduceStep op left right p k c).Proper := by
  unfold reduceStep
  split
  · split
    · exact ⟨Operand.task_proper hright, proper_push hp hk⟩
    · exact error_proper (by simp) hk
  · exact ⟨Operand.task_proper hleft, proper_push ⟨⟨‹_›, hop⟩, hright, hp⟩ hk⟩

theorem sweepStep_proper {p : Place} (hp : p.Swept) (hk : ∀ w ∈ k, w.Proper) :
    (sweepStep p k c).Proper := by
  obtain ⟨tier, looser, before, passed, done, others⟩ := p
  obtain ⟨hbefore, hpassed, hdone, hothers⟩ := hp
  unfold sweepStep
  cases before with
  | nil =>
    cases looser with
    | nil =>
      have hleft : ∀ x ∈ passed, x.op? = none := fun x hx => Operand.op?_of_among_nil (hpassed x hx)
      exact ⟨⟨List.forall_mem_append.mpr ⟨hdone, hleft⟩, hothers⟩, hk⟩
    | cons next looser =>
      refine ⟨⟨fun x hx => hpassed x (List.mem_reverse.mp hx), ?_, hdone, hothers⟩, hk⟩
      exact fun x hx => absurd hx List.not_mem_nil
  | cons x before =>
    obtain ⟨hx, hbefore⟩ := List.forall_mem_cons.mp hbefore
    simp only
    split
    · rename_i hpass
      have hpassed' := List.forall_mem_cons.mpr ⟨hx.pass hpass, hpassed⟩
      exact ⟨⟨hbefore, hpassed', hdone, hothers⟩, hk⟩
    · rename_i op hop
      split
      · exact error_proper (by simp) hk
      · rename_i left before
        split
        · exact error_proper (by simp) hk
        · rename_i hleft
          split
          · exact error_proper (by simp) hk
          · rename_i right passed
            split
            · exact error_proper (by simp) hk
            · rename_i hright
              refine reduceStep_proper ⟨tier, (Tier.op?_eq_some_iff.mp hop).2⟩
                (by simpa using hleft) (by simpa using hright) ?_ hk
              exact ⟨(List.forall_mem_cons.mp hbefore).2, (List.forall_mem_cons.mp hpassed).2,
                hdone, hothers⟩

/-! ## Terms -/

theorem closureStep_proper {param : Option String} {body : Group} {arg : Option Group}
    (hk : ∀ w ∈ k, w.Proper) : (closureStep param body arg k c).Proper := by
  unfold closureStep
  split
  · exact ⟨trivial, proper_push trivial hk⟩
  · exact ⟨trivial, proper_push trivial hk⟩

theorem callStep_proper {name : String} {arg : Option Group} (hk : ∀ w ∈ k, w.Proper) :
    (callStep name arg k c).Proper := by
  unfold callStep
  split
  · cases arg <;> exact ⟨trivial, proper_push trivial hk⟩
  · split
    · exact closureStep_proper hk
    · exact error_proper (by simp) hk

theorem termStep_proper {t : Term} (ht : t.op? = none) (hk : ∀ w ∈ k, w.Proper) :
    (termStep k c t).Proper := by
  cases t with
  | literal v => exact ⟨trivial, hk⟩
  | ident name => exact ⟨trivial, hk⟩
  | op o => cases ht
  | group g => exact ⟨trivial, hk⟩
  | cond test whenTrue whenFalse => exact ⟨trivial, proper_push trivial hk⟩
  | loop name body =>
    simp only [termStep]
    split
    · exact error_proper (by simp) hk
    · exact ⟨trivial, proper_push trivial hk⟩
  | brk name value => exact ⟨trivial, proper_push trivial hk⟩
  | closure param body => exact ⟨trivial, hk⟩
  | call name arg => exact callStep_proper hk

theorem bracketStep_proper {seed : Frame} {g : Group} (hk : ∀ w ∈ k, w.Proper) :
    (m.bracketStep seed g k c).Proper := by
  unfold bracketStep
  split
  · exact error_proper (by simp) hk
  · exact ⟨⟨List.forall_mem_nil _, fun _ => among_of_chunks⟩, proper_push trivial hk⟩

/-! ## Values -/

theorem numberStep_proper {v : Value} {op : Op} {next : Float → Config}
    (hk : ∀ w ∈ k, w.Proper) (hnext : ∀ x, (next x).Proper) :
    (numberStep v op k c next).Proper := by
  cases v with
  | number x => exact hnext x
  | _ => exact error_proper (by simp) hk

theorem resultStep_proper {op : Op} {p : Place} (hop : op.Computes) (hp : p.Swept)
    (hk : ∀ w ∈ k, w.Proper) (x y : Float) : (m.resultStep op x y p k c).Proper := by
  obtain ⟨hassign, tier, htier⟩ := hop
  obtain ⟨z, hz⟩ := Op.exists_result htier hassign m.arithmetic x y
  rw [resultStep, hz]
  exact ⟨hp.reduced _, hk⟩

theorem againStep_proper {v : Value} {name : String} {body : Group} {count : UInt64} {around : Nat}
    (hk : ∀ w ∈ k, w.Proper) : (m.againStep v name body count around k c).Proper := by
  unfold againStep
  split
  · split
    · exact error_proper (by simp) (proper_push trivial hk)
    · exact ⟨trivial, proper_push trivial hk⟩
  · exact ⟨trivial, hk⟩

theorem resume_proper {v : Value} {w : Waiting} (hw : w.Proper) (hk : ∀ w ∈ k, w.Proper) :
    (m.resume v k c w).Proper := by
  cases w with
  | left op right p =>
    obtain ⟨hop, hright, hp⟩ := hw
    refine numberStep_proper hk fun x => ?_
    exact ⟨Operand.task_proper hright, proper_push ⟨hop, hp⟩ hk⟩
  | right op x p => exact numberStep_proper hk fun y => resultStep_proper hw.1 hw.2 hk x y
  | target name p => exact ⟨Place.Swept.reduced hw _, hk⟩
  | operand rest => exact ⟨hw, hk⟩
  | again name body count around => exact againStep_proper hk
  | cut name =>
    simp only [resume]
    split
    · exact ⟨trivial, hk⟩
    · exact error_proper (by simp) hk
  | argument param body => exact ⟨trivial, proper_push trivial hk⟩
  | _ => exact ⟨trivial, hk⟩

/-! ## Steps -/

theorem step_proper {s s' : Config} (h : m.step s = some s') (hs : s.Proper) : s'.Proper := by
  obtain ⟨task, k, c⟩ := s
  obtain ⟨htask, hk⟩ := hs
  cases task with
  | value v =>
    cases k with
    | nil => cases h
    | cons w k =>
      cases h
      obtain ⟨hw, hk⟩ := List.forall_mem_cons.mp hk
      exact resume_proper hw hk
  | error e =>
    cases k with
    | nil => cases h
    | cons w k =>
      cases h
      exact ⟨htask, (List.forall_mem_cons.mp hk).2⟩
  | term t => cases h; exact termStep_proper htask hk
  | bracket seed g => cases h; exact bracketStep_proper hk
  | chunks done others =>
    obtain ⟨hdone, hothers⟩ := htask
    cases others with
    | nil => cases h; exact ⟨hdone, hk⟩
    | cons chunk others =>
      cases h
      obtain ⟨hchunk, hothers⟩ := List.forall_mem_cons.mp hothers
      exact ⟨⟨fun x hx => hchunk x (List.mem_reverse.mp hx), List.forall_mem_nil _, hdone, hothers⟩, hk⟩
  | sweep p => cases h; exact sweepStep_proper htask hk
  | rest last operands =>
    cases operands with
    | nil => cases h; exact ⟨trivial, hk⟩
    | cons x operands =>
      cases h
      obtain ⟨hx, hoperands⟩ := List.forall_mem_cons.mp htask
      exact ⟨Operand.task_proper hx, proper_push hoperands hk⟩

theorem steps_proper {s s' : Config} (h : Steps m s s') (hs : s.Proper) : s'.Proper := by
  induction h with
  | refl => exact hs
  | cons hstep _ ih => exact ih (step_proper hstep hs)

theorem start_proper {entry : Entry} (hentry : ∀ op, entry ≠ .term (.op op)) (c : Context) :
    (entry.start c).Proper := by
  have hempty : ∀ w ∈ ([] : List Waiting), w.Proper := List.forall_mem_nil _
  cases entry with
  | term t =>
    refine ⟨?_, hempty⟩
    cases t with
    | op o => exact absurd rfl (hentry o)
    | _ => rfl
  | terms g => exact ⟨⟨List.forall_mem_nil _, fun _ => among_of_chunks⟩, hempty⟩
  | program g => exact ⟨trivial, proper_push trivial hempty⟩
  | group seed g => exact ⟨trivial, hempty⟩
  | _ => exact ⟨rfl, hempty⟩

theorem eval_ne_unexpected {entry : Entry} (hentry : ∀ op, entry ≠ .term (.op op)) (c : Context)
    (op : Op) (d : Context) : m.eval entry c ≠ .failed (.unexpectedOperator op) d := by
  intro h
  have hends := eval_ends m entry c
  rw [h] at hends
  exact (steps_proper hends (start_proper hentry c)).task op rfl

end Machine

/-- No operator is evaluated at any moment, and none is ever refused, unless an evaluation is asked
for an operator alone. A list that has been reduced holds none, and its reduction by index finds
every element that it asks for. -/
theorem operators_never_evaluated (m : Machine) (c : Context) :
    (∀ entry : Entry, (∀ op, entry ≠ .term (.op op)) →
      (∀ s op, Steps m (entry.start c) s →
        s.task ≠ .term (.op op) ∧ s.task ≠ .error (.unexpectedOperator op)) ∧
      ∀ op d, m.eval entry c ≠ .failed (.unexpectedOperator op) d) ∧
    (∀ source op d, m.run source c ≠ .failed (.runtime (.unexpectedOperator op)) d) ∧
    (∀ (σ : Type) (e : Evaluator σ) (g : Group) (s s' : σ) (left : List Operand),
      e.reduceChunks (chunks g) s = .done left s' → ∀ x ∈ left, x.op? = none) ∧
    ∀ (σ : Type) (e : Evaluator σ) (chunk : List Operand),
      e.splicing chunk = e.reduceChunk chunk >>= fun left => pure (some left) := by
  refine ⟨fun entry hentry => ⟨fun s op hs => ?_, ?_⟩, fun source op d h => ?_, ?_, ?_⟩
  · have hproper := (Machine.steps_proper hs (Machine.start_proper hentry c)).task
    constructor
    · intro htask
      rw [htask] at hproper
      cases hproper
    · intro htask
      rw [htask] at hproper
      exact hproper op rfl
  · exact Machine.eval_ne_unexpected hentry c
  · unfold Machine.run at h
    split at h
    · cases h
    · rename_i g _
      have hentry : ∀ op, Entry.program g ≠ .term (.op op) := nofun
      have hprogram := Machine.eval_ne_unexpected (m := m) hentry c op
      split at h
      · cases h
      · rename_i ho
        cases h
        exact hprogram d ho
      · cases h
  · exact fun σ e g s s' left h => Evaluator.op?_of_reduceChunks h
  · exact fun σ e chunk => Evaluator.splicing_eq e chunk

/-- Operators at both ends of a list and one after another, and a list that is reduced. -/
theorem operators_never_evaluated_stray :
    let m : Machine := { patience := 0 }
    let c := Context.fresh
    let stray : Entry := .terms [.op .comma, .ident "x", .op .mul, .op .less, .op .add]
    let g : Group := [.ident "x", .op .assign, .literal none, .op .comma, .ident "y"]
    let left : List Operand := [.reduced none, .source (.ident "y")]
    (∀ op, stray ≠ .term (.op op)) ∧ Steps m (stray.start c) (stray.start c) ∧
    (∀ op, (stray.start c).task ≠ .error (.unexpectedOperator op)) ∧
    (∀ op d, m.eval stray c ≠ .failed (.unexpectedOperator op) d) ∧
    (m.evaluator m.evalTerm).reduceChunks (chunks g) c = .done left (c.assign "x" .null) ∧
    ∀ x ∈ left, x.op? = none := by
  intro m c stray g left
  obtain ⟨hentries, -, hleft, -⟩ := operators_never_evaluated m c
  have hstray : ∀ op, stray ≠ .term (.op op) := nofun
  have hsteps : Steps m (stray.start c) (stray.start c) := .refl
  have hreduced : (m.evaluator m.evalTerm).reduceChunks (chunks g) c =
      .done left (c.assign "x" .null) := rfl
  obtain ⟨htasks, heval⟩ := hentries stray hstray
  exact ⟨hstray, hsteps, fun op => (htasks _ op hsteps).2, heval, hreduced,
    hleft _ _ g c _ left hreduced⟩

end Bracket
