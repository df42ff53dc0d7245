import Bracket.Proofs.Agree
import Bracket.Proofs.Steps

/-!
# Bracket.Proofs.Lockstep

Two machines that evaluate the same thing from contexts that differ in something.

`Lockstep` is what has to be known about a relation between contexts: one clause for each way in
which an evaluation reads a context or changes it. Every construct then goes alike in both machines
(`termWith_together`), and so does every evaluation (`eval_together`), up to the ends that are
excused.

The relation may depend on the place in the evaluation, which is another one inside a bracket and
inside the body of a closure that is called.
-/

namespace Bracket
namespace Machine

/-- What `m` does `m'` does too, unless `m` comes to an end that is excused. -/
structure Allows (m m' : Machine) (excused : Option RuntimeError → Prop) : Prop where
  arithmetic : m.arithmetic = m'.arithmetic
  maxDepth : m.maxDepth ≤ m'.maxDepth
  recursion : m'.maxDepth = m.maxDepth ∨ excused (some (.recursionLimit m.maxDepth))
  iteration : ∀ count, m'.exhausted? count = m.exhausted? count ∨
    ∃ limit, m.exhausted? count = some limit ∧
      ∀ name, excused (some (.iterationLimit name limit))
  rounds : m.rounds ≤ m'.rounds
  unfinished : excused none

/-- The contexts of the two machines stay related. Brackets lead from a place to the one `inside`
it, and calls to the one that is `called` from it. -/
structure Lockstep {ι : Type} (m m' : Machine) (excused : Option RuntimeError → Prop)
    (inside called : ι → ι) (R : ι → Context → Context → Prop) : Prop
    extends m.Allows m' excused where
  resolve : ∀ {i c d} name, R i c d → c.scopes.resolve name = d.scopes.resolve name
  loops : ∀ {i c d}, R i c d → c.loops = d.loops
  depth : ∀ {i c d}, R i c d → d.depth ≤ c.depth
  /-- The first machine may run out of levels before the second one does. -/
  deeper : ∀ {i c d}, R i c d → c.depth ≤ d.depth ∨ excused (some (.recursionLimit m.maxDepth))
  assign : ∀ {i c d} name v, R i c d → R i (c.assign name v) (d.assign name v)
  printLine : ∀ {i c d} line, R i c d → R i (c.printLine line) (d.printLine line)
  withLoops : ∀ {i c d} loops, R i c d → R i { c with loops := loops } { d with loops := loops }
  enter : ∀ {i c d} seed, R i c d → R (inside i) (c.enter seed) (d.enter seed)
  leave : ∀ {i c d}, R (inside i) c d → R i c.leave d.leave
  detach : ∀ {i c d}, R i c d → R (called i) c.detach.2 d.detach.2
  attach : ∀ {i c d c' d'}, R i c d → R (called i) c' d' →
    R i (c'.attach c.detach.1) (d'.attach d.detach.1)

variable {ι : Type} {m m' : Machine} {excused : Option RuntimeError → Prop}
  {inside called : ι → ι} {R : ι → Context → Context → Prop} {α β : Type}

/-- At every place, from related contexts, the two evaluations go alike. -/
def Together (excused : Option RuntimeError → Prop) (R : ι → Context → Context → Prop)
    (x y : Eval Context α) : Prop :=
  ∀ i, Eval.Agree (R i) excused x y

namespace Together

theorem pure (a : α) : Together excused R (Pure.pure a) (Pure.pure a) := fun _ => .pure a

theorem fail (e : RuntimeError) :
    Together excused R (Eval.fail e : Eval Context α) (Eval.fail e) := fun _ => .fail e

theorem bind {x y : Eval Context α} {f g : α → Eval Context β} (h : Together excused R x y)
    (hfg : ∀ a, Together excused R (f a) (g a)) : Together excused R (x >>= f) (y >>= g) :=
  fun i => .bind (h i) fun a => hfg a i

end Together

section

variable {ev ev' : Term → Eval Context Value}

theorem terms_together (h : Lockstep m m' excused inside called R)
    (hev : ∀ t, Together excused R (ev t) (ev' t)) (g : Group) :
    Together excused R ((m.evaluator ev).terms g) ((m'.evaluator ev').terms g) := by
  intro i
  have hagree : Evaluator.Agree (R i) excused (m.evaluator ev) (m'.evaluator ev') :=
    ⟨fun t => hev t i, fun name v _ _ hc => h.assign name v hc, h.arithmetic⟩
  exact Evaluator.terms_agree hagree g

theorem bracket_together (h : Lockstep m m' excused inside called R)
    (hev : ∀ t, Together excused R (ev t) (ev' t)) (seed : Frame) (g : Group) :
    Together excused R (m.bracket ev seed g) (m'.bracket ev' seed g) := by
  intro i c d hc
  unfold bracket
  split
  · rename_i hdeep
    rcases h.recursion with hsame | hexcused
    · rcases h.deeper hc with hdepth | hexcused
      · rw [hsame, if_pos (Nat.le_trans hdeep hdepth)]
        exact .failed hc
      · exact .excusedError hexcused
    · exact .excusedError hexcused
  · rename_i hroom
    have hroom' : ¬ m'.maxDepth ≤ d.depth := by
      have := h.maxDepth
      have := h.depth hc
      omega
    rw [if_neg hroom']
    have hterms := terms_together h hev g (inside i) _ _ (h.enter seed hc)
    exact hterms.afterwards fun _ _ hd => h.leave hd

theorem cond_together (h : Lockstep m m' excused inside called R)
    (hev : ∀ t, Together excused R (ev t) (ev' t)) (test whenTrue whenFalse : Group) :
    Together excused R (m.cond ev test whenTrue whenFalse) (m'.cond ev' test whenTrue whenFalse) :=
  .bind (bracket_together h hev [] test) fun _ => bracket_together h hev [] _

/-- On the rounds of the first loop. The second one is given more, and may reach its limit later. -/
theorem iterate_together (h : Lockstep m m' excused inside called R)
    (hev : ∀ t, Together excused R (ev t) (ev' t)) {i : ι} (name : String) (body : Group)
    (rounds : Nat) :
    ∀ rounds', rounds ≤ rounds' → ∀ count last c d, R i c d →
      Outcome.Agree (R i) excused (m.iterate ev name body rounds count last c)
        (m'.iterate ev' name body rounds' count last d) := by
  induction rounds with
  | zero => intro _ _ _ _ _ _ _; exact .excusedUnfinished h.unfinished
  | succ rounds ih =>
    intro rounds' hle count last c d hc
    obtain ⟨more, rfl⟩ : ∃ more, rounds' = more + 1 := ⟨rounds' - 1, by omega⟩
    unfold iterate
    rw [h.loops hc]
    split
    · rcases h.iteration count with hsame | ⟨limit, hlimit, hexcused⟩
      · rw [hsame]
        cases m.exhausted? count with
        | some limit => exact .failed hc
        | none =>
          have hbody := bracket_together h hev [] body i c d hc
          simp only
          generalize m.bracket ev [] body c = o at hbody ⊢
          generalize m'.bracket ev' [] body d = o' at hbody ⊢
          cases hbody with
          | done hd => exact ih more (by omega) _ _ _ _ hd
          | failed hd => exact .failed hd
          | unfinished => exact .unfinished
          | excusedError he => exact .excusedError he
          | excusedUnfinished hn => exact .excusedUnfinished hn
      · rw [hlimit]
        exact .excusedError (hexcused name)
    · exact .done hc

theorem loop_together (h : Lockstep m m' excused inside called R)
    (hev : ∀ t, Together excused R (ev t) (ev' t)) (name : String) (body : Group) :
    Together excused R (m.loop ev name body) (m'.loop ev' name body) := by
  intro i c d hc
  unfold loop Context.startLoop
  rw [h.loops hc]
  split
  · exact .failed hc
  · have hiterate := iterate_together h hev name body _ _ h.rounds 0 .null _ _
      (h.withLoops (name :: d.loops) hc)
    refine hiterate.onFailure fun c' d' hd => ?_
    unfold Context.keepLoops
    rw [h.loops hd]
    exact h.withLoops _ hd

theorem brk_together (h : Lockstep m m' excused inside called R)
    (hev : ∀ t, Together excused R (ev t) (ev' t)) (name : String) (value : Group) :
    Together excused R (m.brk ev name value) (m'.brk ev' name value) := by
  refine .bind (bracket_together h hev [] value) fun v => .bind ?_ fun _ => .pure v
  intro i c d hc
  unfold endLoop
  rw [h.loops hc]
  cases Context.around? name d.loops with
  | some outer => exact .done (h.withLoops outer hc)
  | none => exact .failed hc

theorem printArg_together (h : Lockstep m m' excused inside called R)
    (hev : ∀ t, Together excused R (ev t) (ev' t)) (arg : Option Group) :
    Together excused R (m.printArg ev arg) (m'.printArg ev' arg) := by
  have hprint : ∀ v : Value, Together excused R
      (do Eval.modify fun c => c.printLine v.text; pure Value.null)
      (do Eval.modify fun c => c.printLine v.text; pure Value.null) := fun v =>
    .bind (fun _ => .modify fun _ _ hc => h.printLine v.text hc) fun _ => .pure _
  cases arg with
  | none => exact .bind (.pure _) hprint
  | some g => exact .bind (bracket_together h hev [] g) hprint

theorem seed_together (h : Lockstep m m' excused inside called R)
    (hev : ∀ t, Together excused R (ev t) (ev' t)) (param : Option String) (arg : Option Group) :
    Together excused R (m.seed ev param arg) (m'.seed ev' param arg) := by
  unfold seed
  split
  · exact .bind (bracket_together h hev [] _) fun v => .pure _
  · exact .pure _

theorem body_together (h : Lockstep m m' excused inside called R)
    (hev : ∀ t, Together excused R (ev t) (ev' t)) (frame : Frame) (g : Group) :
    Together excused R (m.body ev frame g) (m'.body ev' frame g) := by
  intro i c d hc
  have hbracket := bracket_together h hev frame g (called i) _ _ (h.detach hc)
  exact hbracket.afterwards fun _ _ hd => h.attach hc hd

theorem callClosure_together (h : Lockstep m m' excused inside called R)
    (hev : ∀ t, Together excused R (ev t) (ev' t)) (name : String) (arg : Option Group) :
    Together excused R (m.callClosure ev name arg) (m'.callClosure ev' name arg) := by
  intro i c d hc
  unfold callClosure
  rw [h.resolve name hc]
  cases d.scopes.resolve name with
  | closure param g =>
    have hcall : Together excused R (do m.body ev (← m.seed ev param arg) g)
        (do m'.body ev' (← m'.seed ev' param arg) g) :=
      .bind (seed_together h hev param arg) fun frame => body_together h hev frame g
    exact hcall i c d hc
  | null => exact .failed hc
  | number x => exact .failed hc

theorem termWith_together (h : Lockstep m m' excused inside called R)
    (hev : ∀ t, Together excused R (ev t) (ev' t)) (t : Term) :
    Together excused R (m.termWith ev t) (m'.termWith ev' t) := by
  cases t with
  | literal v => exact .pure _
  | ident name =>
    intro i c d hc
    show Outcome.Agree _ _ (.done (c.scopes.resolve name) c) (.done (d.scopes.resolve name) d)
    rw [h.resolve name hc]
    exact .done hc
  | op o => exact .fail _
  | group g => exact bracket_together h hev [] g
  | cond test whenTrue whenFalse => exact cond_together h hev test whenTrue whenFalse
  | loop name body => exact loop_together h hev name body
  | brk name value => exact brk_together h hev name value
  | closure param body => exact .pure _
  | call name arg =>
    show Together excused R (m.call ev name arg) (m'.call ev' name arg)
    unfold call
    split
    · exact printArg_together h hev arg
    · exact callClosure_together h hev name arg

end

/-- The second machine has levels to spare. -/
theorem termAt_together (h : Lockstep m m' excused inside called R) (levels : Nat) :
    ∀ levels', levels ≤ levels' →
      ∀ t, Together excused R (m.termAt levels t) (m'.termAt levels' t) := by
  induction levels with
  | zero => intro _ _ _ _ _ _ _; exact .excusedUnfinished h.unfinished
  | succ levels ih =>
    intro levels' hle t
    obtain ⟨more, rfl⟩ : ∃ more, levels' = more + 1 := ⟨levels' - 1, by omega⟩
    exact termWith_together h (ih more (by omega)) t

theorem eval_together (h : Lockstep m m' excused inside called R) (entry : Entry) :
    Together excused R (m.eval entry) (m'.eval entry) := by
  have hev : ∀ t, Together excused R (m.evalTerm t) (m'.evalTerm t) :=
    termAt_together h m.levels m'.levels (Nat.succ_le_succ h.maxDepth)
  cases entry with
  | term t => exact hev t
  | terms g => exact terms_together h hev g
  | group seed g => exact bracket_together h hev seed g
  | cond test whenTrue whenFalse => exact cond_together h hev test whenTrue whenFalse
  | loop name body => exact loop_together h hev name body
  | brk name value => exact brk_together h hev name value
  | call name arg => exact termWith_together h hev (.call name arg)
  | program g =>
    intro i c d hc
    exact (bracket_together h hev [] g i c d hc).onFailure fun _ _ hd => h.withLoops [] hd

end Machine
end Bracket
