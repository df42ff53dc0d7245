import Bracket.Eval.Machine

/-!
# Bracket.Eval.Loop

Loops and breaks. A loop runs its body as long as it is the innermost running loop; a break ends
the loop it names and every loop inside that one.
-/

namespace Bracket
namespace Machine

variable (m : Machine) (ev : Term → Eval Context Value)

/-- The limit, if a loop that has run its body `count` times has reached it. -/
def exhausted? (count : UInt64) : Option UInt64 :=
  match m.maxIterations with
  | some limit => if limit ≤ count then some limit else none
  | none => none

/-- Runs a body again and again, for at most the given number of rounds. -/
def iterate (name : String) (body : Group) :
    Nat → UInt64 → Value → Context → Outcome RuntimeError Context Value
  | 0, _, _, _ => .unfinished
  | rounds + 1, count, last, c =>
    if c.loops.head? = some name then
      match m.exhausted? count with
      | some limit => .failed (.iterationLimit name limit) c
      | none =>
        match m.bracket ev [] body c with
        | .done v c => iterate name body rounds (count + 1) v c
        | .failed e c => .failed e c
        | .unfinished => .unfinished
    else .done last c

/-- Enough rounds to reach the limit, if there is one. -/
def rounds : Nat :=
  match m.maxIterations with
  | some limit => limit.toNat + 1
  | none => m.patience

/-- The value of the last round. A name may be running only once. -/
def loop (name : String) (body : Group) : Eval Context Value := fun c =>
  if name ∈ c.loops then .failed (.loopAlreadyActive name) c
  else
    (m.iterate ev name body m.rounds 0 .null (c.startLoop name)).onFailure fun d =>
      d.keepLoops c.loops.length

/-! ## Breaks -/

/-- Ends the innermost loop with the name and the loops inside it. -/
def endLoop (name : String) : Eval Context Unit := fun c =>
  match Context.around? name c.loops with
  | some outer => .done () { c with loops := outer }
  | none => .failed (.unknownLoop name) c

/-- The value is evaluated before the loop is looked for. -/
def brk (name : String) (value : Group) : Eval Context Value := do
  let v ← m.bracket ev [] value
  endLoop name
  pure v

end Machine
end Bracket
