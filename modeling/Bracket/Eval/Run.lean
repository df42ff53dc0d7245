import Bracket.Eval.Call
import Bracket.Eval.Loop

/-!
# Bracket.Eval.Run

Evaluating terms. A term may run code that is no part of it, the body of a closure, so evaluation
follows levels of nesting and not the tree. Each level stands for one bracket that is entered, and
a machine enters no more brackets than its depth limit allows, so that many levels and one more are
enough for any term.
-/

namespace Bracket
namespace Machine

/-- Evaluates a term whose brackets are evaluated by `ev`. -/
def termWith (m : Machine) (ev : Term → Eval Context Value) : Term → Eval Context Value
  | .literal v => pure (Value.ofLiteral v)
  | .ident name => fun c => .done (c.scopes.resolve name) c
  | .op o => Eval.fail (.unexpectedOperator o)
  | .group g => m.bracket ev [] g
  | .cond test whenTrue whenFalse => m.cond ev test whenTrue whenFalse
  | .loop name body => m.loop ev name body
  | .brk name value => m.brk ev name value
  | .closure param body => pure (.closure param body)
  | .call name arg => m.call ev name arg

def termAt (m : Machine) : Nat → Term → Eval Context Value
  | 0, _ => fun _ => .unfinished
  | levels + 1, t => m.termWith (m.termAt levels) t

def levels (m : Machine) : Nat := m.maxDepth + 1

def evalTerm (m : Machine) : Term → Eval Context Value := m.termAt m.levels

/-- Evaluates a list of terms in the current frame. -/
def evalTerms (m : Machine) : Group → Eval Context Value := (m.evaluator m.evalTerm).terms

/-- Evaluates a group in a new frame that starts with some names bound. -/
def evalGroup (m : Machine) (seed : Frame) (g : Group) : Eval Context Value :=
  m.bracket m.evalTerm seed g

/-- Evaluates a whole program; one that fails leaves no loop running. -/
def evalProgram (m : Machine) (g : Group) : Eval Context Value := fun c =>
  (m.evalGroup [] g c).onFailure fun d => { d with loops := [] }

end Machine
end Bracket
