import Bracket.Proofs.Lockstep

/-!
# Bracket.Proofs.Limits

Larger limits. What ends without reaching a limit ends in the same way, and in the same context,
under all larger limits (`same_outcome_under_larger_limits`).

Two evaluations from the same context go in lockstep until the first of them reaches a limit. That
is `Machine.Lockstep` with equal contexts, and with the ends at a limit excused; of the machines it
needs what `Machine.Allows` says.

The rounds given to a loop without a limit are no limit of the language. Two machines that differ
in nothing else go in lockstep as well, with no end excused but the unfinished one, so an outcome
does not depend on them once there are enough (`Machine.Gives`).
-/

namespace Bracket

def RuntimeError.isLimit : RuntimeError → Bool
  | .recursionLimit _ | .iterationLimit .. => true
  | _ => false

def Failure.isLimit : Failure → Bool
  | .parse _ => false
  | .runtime e => e.isLimit

namespace Machine

/-- The limits of `m` are at most those of `m'`, where no limit on iterations is above all of them. -/
structure Below (m m' : Machine) : Prop where
  arithmetic : m.arithmetic = m'.arithmetic
  maxDepth : m.maxDepth ≤ m'.maxDepth
  maxIterations : ∀ limit', m'.maxIterations = some limit' →
    ∃ limit, m.maxIterations = some limit ∧ limit ≤ limit'

/-- The machine computes the outcome. Without a limit on iterations its patience may be too small
for that; more patience then brings the outcome, and no other one. -/
def Gives {ε α : Type} (m : Machine) (compute : Machine → Outcome ε Context α)
    (o : Outcome ε Context α) : Prop :=
  (compute m = o ∨ m.maxIterations = none ∧ compute m = .unfinished) ∧
  ∃ enough, ∀ patience, enough ≤ patience → compute { m with patience := patience } = o

/-! ## Lockstep -/

variable {m m' : Machine} {excused : Option RuntimeError → Prop}

/-- From every context the first evaluation is followed by the second up to its end, or up to an
end that is excused. -/
def Follows {α : Type} (excused : Option RuntimeError → Prop) (x y : Eval Context α) : Prop :=
  Eval.Agree Eq excused x y

/-- The same context is reached from the same context, at every place. -/
theorem Allows.lockstep (h : m.Allows m' excused) :
    Lockstep m m' excused id id fun _ : Unit => Eq where
  toAllows := h
  resolve _ hc := hc ▸ rfl
  loops hc := hc ▸ rfl
  depth hc := hc ▸ Nat.le_refl _
  deeper hc := .inl (hc ▸ Nat.le_refl _)
  assign _ _ hc := hc ▸ rfl
  printLine _ hc := hc ▸ rfl
  withLoops _ hc := hc ▸ rfl
  enter _ hc := hc ▸ rfl
  leave hc := hc ▸ rfl
  detach hc := hc ▸ rfl
  attach hc hd := hc ▸ hd ▸ rfl

theorem eval_follows (h : m.Allows m' excused) (entry : Entry) :
    Follows excused (m.eval entry) (m'.eval entry) := eval_together h.lockstep entry ()

/-! ## Limits and patience -/

/-- The ends at a limit, and at the end of the patience. -/
def atLimit : Option RuntimeError → Prop
  | some e => e.isLimit = true
  | none => True

/-- The one end that depends on patience. -/
def impatient : Option RuntimeError → Prop
  | some _ => False
  | none => True

theorem exhausted?_below (h : m.Below m') (count : UInt64) :
    m'.exhausted? count = m.exhausted? count ∨
      ∃ limit, m.exhausted? count = some limit ∧
        ∀ name, atLimit (some (.iterationLimit name limit)) := by
  cases hm : m.exhausted? count with
  | some limit => exact .inr ⟨limit, rfl, fun _ => rfl⟩
  | none =>
    refine .inl ?_
    unfold exhausted? at hm ⊢
    cases hm' : m'.maxIterations with
    | none => rfl
    | some limit' =>
      obtain ⟨limit, hlimit, hle⟩ := h.maxIterations limit' hm'
      rw [hlimit] at hm
      simp only [ite_eq_right_iff, reduceCtorEq, imp_false] at hm ⊢
      exact fun hcount => hm (UInt64.le_trans hle hcount)

theorem Below.allows (h : m.Below m') (hrounds : m.rounds ≤ m'.rounds) : m.Allows m' atLimit where
  arithmetic := h.arithmetic
  maxDepth := h.maxDepth
  recursion := .inr rfl
  iteration := exhausted?_below h
  rounds := hrounds
  unfinished := trivial

theorem Below.withPatience (h : m.Below m') (patience : Nat) :
    m.Below { m' with patience := patience } := ⟨h.arithmetic, h.maxDepth, h.maxIterations⟩

/-- A limit is never above the larger one, so only patience can be too small. -/
theorem Below.rounds_le (h : m.Below m')
    (hpatience : m'.maxIterations = none → m.rounds ≤ m'.patience) : m.rounds ≤ m'.rounds := by
  cases hm' : m'.maxIterations with
  | none => simpa only [rounds, hm'] using hpatience hm'
  | some limit' =>
    obtain ⟨limit, hlimit, hle⟩ := h.maxIterations limit' hm'
    have hle := UInt64.le_iff_toNat_le.mp hle
    simp only [rounds, hm', hlimit]
    omega

theorem allows_withPatience {patience : Nat} (hle : m.patience ≤ patience) :
    m.Allows { m with patience := patience } impatient where
  arithmetic := rfl
  maxDepth := Nat.le_refl _
  recursion := .inl rfl
  iteration := fun _ => .inl rfl
  rounds := by
    unfold rounds
    cases m.maxIterations with
    | none => exact hle
    | some limit => exact Nat.le_refl _
  unfinished := trivial

theorem eq_or_unfinished_of_agree {α : Type} {o o' : Outcome RuntimeError Context α}
    (h : Outcome.Agree Eq impatient o o') : o = o' ∨ o = .unfinished := by
  cases h with
  | done hd => exact .inl (by rw [hd])
  | failed hd => exact .inl (by rw [hd])
  | unfinished => exact .inr rfl
  | excusedError he => exact he.elim
  | excusedUnfinished => exact .inr rfl

theorem eval_eq_of_below (h : m.Below m')
    (hpatience : m'.maxIterations = none → m.rounds ≤ m'.patience) {entry : Entry} {c : Context}
    (ho : (m.eval entry c).Avoids RuntimeError.isLimit) : m'.eval entry c = m.eval entry c :=
  (eval_follows (h.allows (h.rounds_le hpatience)) entry c c rfl).eq_of_avoids (fun _ he => he) ho

/-- Its own patience may be too small, but is not more than that of a machine with enough. -/
theorem gives_of_enough {entry : Entry} {c : Context} {o : Outcome RuntimeError Context Value}
    {enough : Nat}
    (henough : ∀ patience, enough ≤ patience →
      ({ m with patience := patience } : Machine).eval entry c = o)
    (hlimit : m.maxIterations ≠ none → m.eval entry c = o) :
    m.Gives (fun m => m.eval entry c) o := by
  refine ⟨?_, enough, henough⟩
  by_cases hnone : m.maxIterations = none
  · have hown := allows_withPatience (m := m) (Nat.le_max_left m.patience enough)
    have heq := eq_or_unfinished_of_agree (eval_follows hown entry c c rfl)
    rw [henough (max m.patience enough) (Nat.le_max_right _ _)] at heq
    exact heq.imp_right fun hunfinished => ⟨hnone, hunfinished⟩
  · exact .inl (hlimit hnone)

theorem eval_gives (h : m.Below m') (entry : Entry) (c : Context)
    (ho : (m.eval entry c).Avoids RuntimeError.isLimit) :
    m'.Gives (fun m => m.eval entry c) (m.eval entry c) := by
  have henough : ∀ patience, m.rounds ≤ patience →
      ({ m' with patience := patience } : Machine).eval entry c = m.eval entry c :=
    fun patience hle => eval_eq_of_below (h.withPatience patience) (fun _ => hle) ho
  exact gives_of_enough henough fun hsome =>
    eval_eq_of_below h (fun hnone => absurd hnone hsome) ho

theorem Gives.map {ε ε' α α' : Type} {compute : Machine → Outcome ε Context α}
    {o : Outcome ε Context α} (h : m.Gives compute o)
    (f : Outcome ε Context α → Outcome ε' Context α') (hf : f .unfinished = .unfinished) :
    m.Gives (fun m => f (compute m)) (f o) := by
  obtain ⟨hown, enough, henough⟩ := h
  refine ⟨?_, enough, fun patience hle => congrArg f (henough patience hle)⟩
  rcases hown with hown | ⟨hnone, hown⟩
  · exact .inl (congrArg f hown)
  · exact .inr ⟨hnone, (congrArg f hown).trans hf⟩

/-! ## Texts -/

/-- What evaluating a program gives to the text it was read from. -/
def ofProgram : Outcome RuntimeError Context Value → Outcome Failure Context Value
  | .done v c => .done v c
  | .failed e c => .failed (.runtime e) c
  | .unfinished => .unfinished

theorem run_of_parse {source : String} {g : Group} (hg : Reader.parse source = .ok g)
    (m : Machine) (c : Context) : m.run source c = ofProgram (m.eval (.program g) c) := by
  rw [run, hg]
  show (match m.evalProgram g c with
    | .done v c => Outcome.done v c
    | .failed e c => .failed (.runtime e) c
    | .unfinished => .unfinished) = ofProgram (m.evalProgram g c)
  cases m.evalProgram g c <;> rfl

theorem avoids_of_ofProgram {o : Outcome RuntimeError Context Value}
    (h : (ofProgram o).Avoids Failure.isLimit) : o.Avoids RuntimeError.isLimit := by
  cases o <;> exact h

theorem run_gives (h : m.Below m') (source : String) (c : Context)
    (ho : (m.run source c).Avoids Failure.isLimit) :
    m'.Gives (fun m => m.run source c) (m.run source c) := by
  cases hg : Reader.parse source with
  | error e =>
    have hrun : ∀ m : Machine, m.run source c = .failed (.parse e) c := by
      intro m
      rw [run, hg]
    exact ⟨.inl ((hrun m').trans (hrun m).symm), 0, fun _ _ => (hrun _).trans (hrun m).symm⟩
  | ok g =>
    simp only [run_of_parse hg] at ho ⊢
    exact (eval_gives h (.program g) c (avoids_of_ofProgram ho)).map ofProgram rfl

end Machine

/-- Whatever is evaluated and whatever text is run, in any context: an outcome that is no limit
error is the outcome under larger limits too, with the same context. -/
theorem same_outcome_under_larger_limits {m m' : Machine} (h : m.Below m') (c : Context) :
    (∀ entry : Entry, (m.eval entry c).Avoids RuntimeError.isLimit →
      m'.Gives (fun m => m.eval entry c) (m.eval entry c)) ∧
    ∀ source : String, (m.run source c).Avoids Failure.isLimit →
      m'.Gives (fun m => m.run source c) (m.run source c) :=
  ⟨fun entry => Machine.eval_gives h entry c, fun source => Machine.run_gives h source c⟩

/-- A loop that its second round breaks, first with two rounds allowed and then with any number. -/
theorem same_outcome_without_limit :
    let m : Machine := { maxDepth := 4, maxIterations := some 2, patience := 0 }
    let m' : Machine := { maxDepth := 9, patience := 0 }
    let again : Group := [.ident "again", .op .assign, .literal (some 1.0)]
    let entry : Entry :=
      .program [.loop "l" [.cond [.ident "again"] [.brk "l" [.ident "again"]] again]]
    m.Below m' ∧
    (∃ v d, m.eval entry Context.fresh = .done v d ∧
      m'.Gives (fun m => m.eval entry Context.fresh) (.done v d)) ∧
    m.run "f" Context.fresh = .done .null Context.fresh ∧
    m'.Gives (fun m => m.run "f" Context.fresh) (.done .null Context.fresh) := by
  intro m m' again entry
  have hbelow : m.Below m' := ⟨rfl, by decide, nofun⟩
  obtain ⟨heval, hrun⟩ := same_outcome_under_larger_limits hbelow Context.fresh
  have hv : ∃ v d, m.eval entry Context.fresh = .done v d := ⟨_, _, rfl⟩
  obtain ⟨v, d, hv⟩ := hv
  have hstep : (Reader.Parser.start "f").step =
      .ok ⟨⟨[], 1⟩, ⟨[.done (.ident "f")], []⟩⟩ := rfl
  have hparse : Reader.parse "f" = .ok [.ident "f"] := by
    rw [Reader.parse, Reader.Parser.run, if_neg (by decide)]
    split
    · rename_i hs
      cases hstep.symm.trans hs
    · rename_i hs
      cases hstep.symm.trans hs
      rw [Reader.Parser.run]
      exact if_pos rfl
  have hd : m.run "f" Context.fresh = .done .null Context.fresh := by
    rw [Machine.run_of_parse hparse]
    rfl
  have hgives := heval entry (by rw [hv]; trivial)
  have hgives' := hrun "f" (by rw [hd]; trivial)
  rw [hv] at hgives
  rw [hd] at hgives'
  exact ⟨hbelow, ⟨v, d, hv, hgives⟩, hd, hgives'⟩

end Bracket
