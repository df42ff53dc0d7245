import Bracket.Proofs.Depth
import Bracket.Proofs.StepsCorrect

/-!
# Bracket.Proofs.Termination

Under a limit on iterations every evaluation ends, also if closures call themselves or each other
and if loops are never broken (`ends_under_iteration_limit`).

What is left of the depth bounds the levels: every bracket, the body of a closure included, is
entered at a greater depth than the one around it, and none is entered at the greatest. On a level
the chunks shrink and the rounds are counted.
-/

namespace Bracket
namespace Machine

variable {m : Machine}

/-- An evaluation may end with any error. -/
def finishes (o : Option RuntimeError) : Prop := o ≠ none

theorem lenient_finishes : Lenient finishes := fun e _ => Option.some_ne_none e

theorem termWith_finishes (hlimit : m.maxIterations ≠ none) {ev : Term → Eval Context Value}
    {d : Nat} (henters : ∀ g, m.Enters ev finishes d g) (t : Term) :
    AtDepth d finishes (m.termWith ev t) := by
  have hmay := lenient_finishes
  cases t with
  | literal v => exact .pure _
  | ident name => exact fun _ hc => hc
  | op o => exact .fail fun _ hc => ⟨hc, Option.some_ne_none _⟩
  | group g => exact bracket_atDepth hmay (henters g) []
  | cond test whenTrue whenFalse =>
    exact cond_atDepth hmay (henters test) (henters whenTrue) (henters whenFalse)
  | loop name body => exact loop_atDepth hmay name (henters body) (.inr hlimit)
  | brk name value => exact brk_atDepth hmay name (henters value)
  | closure param body => exact .pure _
  | call name arg =>
    show AtDepth d finishes (m.call ev name arg)
    unfold call
    split
    · exact printArg_atDepth hmay fun g _ => henters g
    · exact callClosure_atDepth hmay henters name arg

/-- On the levels. Each bracket takes one of them, and one of those the depth limit leaves. -/
theorem termAt_finishes (hlimit : m.maxIterations ≠ none) (levels : Nat) :
    ∀ d, m.maxDepth - d < levels → ∀ t, AtDepth d finishes (m.termAt levels t) := by
  induction levels with
  | zero => intro d hd; omega
  | succ levels ih =>
    intro d hd
    refine termWith_finishes hlimit fun g => ⟨.inr (Option.some_ne_none _), ?_⟩
    exact fun hroom t _ => ih (d + 1) (by omega) t

theorem eval_finishes (hlimit : m.maxIterations ≠ none) (entry : Entry) (d : Nat) :
    AtDepth d finishes (m.eval entry) := by
  have hmay := lenient_finishes
  have hterm : ∀ d t, AtDepth d finishes (m.evalTerm t) := fun d =>
    termAt_finishes hlimit m.levels d (Nat.lt_succ_of_le (Nat.sub_le _ _))
  have henters : ∀ g, m.Enters m.evalTerm finishes d g := fun g =>
    ⟨.inr (Option.some_ne_none _), fun _ t _ => hterm (d + 1) t⟩
  have hwith := termWith_finishes hlimit henters
  cases entry with
  | term t => exact hterm d t
  | terms g => exact terms_atDepth hmay fun t _ => hterm d t
  | group seed g => exact bracket_atDepth hmay (henters g) seed
  | cond test whenTrue whenFalse => exact hwith (.cond test whenTrue whenFalse)
  | loop name body => exact hwith (.loop name body)
  | brk name value => exact hwith (.brk name value)
  | call name arg => exact hwith (.call name arg)
  | program g =>
    intro c hc
    exact (bracket_atDepth hmay (henters g) [] c hc).onFailure fun _ _ h => h

end Machine

/-- From a configuration the steps end. -/
def Halts (m : Machine) (s : Config) : Prop :=
  ¬ ∃ run : Nat → Config, run 0 = s ∧ ∀ n, m.step (run n) = some (run (n + 1))

theorem Steps.halts {m : Machine} {s s' : Config} (h : Steps m s s') (hlast : m.step s' = none) :
    Halts m s := by
  induction h with
  | refl =>
    rintro ⟨run, rfl, hrun⟩
    cases hlast.symm.trans (hrun 0)
  | cons hstep _ ih =>
    rintro ⟨run, rfl, hrun⟩
    refine ih hlast ⟨fun n => run (n + 1), ?_, fun n => hrun (n + 1)⟩
    exact Option.some.inj ((hrun 0).symm.trans hstep)

/-- Whatever is evaluated and whatever text is run, in any context, comes to a value or an error.
The steps of an evaluation, which no count of levels or rounds cuts short, end there too. -/
theorem ends_under_iteration_limit {m : Machine} {limit : UInt64}
    (h : m.maxIterations = some limit) (c : Context) :
    (∀ entry : Entry, Halts m (entry.start c) ∧
      ((∃ v d, m.eval entry c = .done v d ∧ Steps m (entry.start c) ⟨.value v, [], d⟩) ∨
        ∃ e d, m.eval entry c = .failed e d ∧ Steps m (entry.start c) ⟨.error e, [], d⟩)) ∧
    ∀ source : String, (∃ v d, m.run source c = .done v d) ∨ ∃ e d, m.run source c = .failed e d := by
  have hlimit : m.maxIterations ≠ none := by simp [h]
  have heval (entry : Entry) := Machine.eval_finishes hlimit entry c.depth c rfl
  refine ⟨fun entry => ?_, fun source => ?_⟩
  · have hends := Machine.eval_ends m entry c
    have hfinishes := heval entry
    cases ho : m.eval entry c with
    | done v d =>
      rw [ho] at hends
      exact ⟨hends.halts rfl, .inl ⟨v, d, rfl, hends⟩⟩
    | failed e d =>
      rw [ho] at hends
      exact ⟨hends.halts rfl, .inr ⟨e, d, rfl, hends⟩⟩
    | unfinished =>
      rw [ho] at hfinishes
      exact absurd rfl hfinishes
  · unfold Machine.run
    cases Reader.parse source with
    | error e => exact .inr ⟨_, _, rfl⟩
    | ok g =>
      have hfinishes : (m.evalProgram g c).Ensures _ _ _ := heval (.program g)
      simp only
      cases ho : m.evalProgram g c with
      | done v d => exact .inl ⟨_, _, rfl⟩
      | failed e d => exact .inr ⟨_, _, rfl⟩
      | unfinished =>
        rw [ho] at hfinishes
        exact absurd rfl hfinishes

/-- A closure that calls itself, and a loop that nothing breaks. -/
theorem ends_self_call_and_endless_loop :
    let m : Machine := { maxDepth := 4, maxIterations := some 2, patience := 0 }
    let selfCall : Entry := .terms [.ident "f", .op .assign, .closure none [.call "f" none],
      .op .comma, .call "f" none]
    let endless : Entry := .program [.loop "l" [.literal none]]
    m.maxIterations = some 2 ∧
    Halts m (selfCall.start Context.fresh) ∧
    (∃ d, m.eval selfCall Context.fresh = .failed (.recursionLimit 4) d) ∧
    Halts m (endless.start Context.fresh) ∧
    ∃ d, m.eval endless Context.fresh = .failed (.iterationLimit "l" 2) d := by
  intro m selfCall endless
  have hlimit : m.maxIterations = some 2 := rfl
  obtain ⟨hends, -⟩ := ends_under_iteration_limit hlimit Context.fresh
  exact ⟨hlimit, (hends selfCall).1, ⟨_, rfl⟩, (hends endless).1, ⟨_, rfl⟩⟩

end Bracket
