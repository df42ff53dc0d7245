import Bracket.Eval.Context
import Bracket.Eval.Reduction

/-!
# Bracket.Eval.Machine

The limits of an evaluation, evaluating a group in a frame of its own, and choosing between two
groups.

Everything here is stated for an arbitrary evaluation `ev` of the terms inside a group.
-/

namespace Bracket

structure Machine where
  /-- How deep groups may be nested while they are evaluated, closure bodies counted. -/
  maxDepth : Nat := 256
  /-- How often any one loop may run its body. -/
  maxIterations : Option UInt64 := none
  arithmetic : Arithmetic := .binary64
  /-- How many rounds a loop without a limit is given before it counts as unfinished. -/
  patience : Nat

namespace Machine

def evaluator (m : Machine) (ev : Term → Eval Context Value) : Evaluator Context where
  term := ev
  assign name v c := c.assign name v
  arithmetic := m.arithmetic

/-- Evaluates a group in a new frame, which is gone afterwards however the evaluation ended. -/
def bracket (m : Machine) (ev : Term → Eval Context Value) (seed : Frame) (g : Group) :
    Eval Context Value := fun c =>
  if m.maxDepth ≤ c.depth then .failed (.recursionLimit m.maxDepth) c
  else ((m.evaluator ev).terms g (c.enter seed)).afterwards Context.leave

/-- Only the chosen branch is evaluated. -/
def cond (m : Machine) (ev : Term → Eval Context Value) (test whenTrue whenFalse : Group) :
    Eval Context Value := do
  let v ← m.bracket ev [] test
  m.bracket ev [] (if v.truthy then whenTrue else whenFalse)

end Machine

end Bracket
