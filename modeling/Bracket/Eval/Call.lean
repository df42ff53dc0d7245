import Bracket.Eval.Machine

/-!
# Bracket.Eval.Call

Calling closures. The body of a closure sees the global frame and its parameter, and none of the
frames of its caller. One name is built in: it prints its argument.
-/

namespace Bracket
namespace Machine

def printName : String := "print"

variable (m : Machine) (ev : Term → Eval Context Value)

/-- Prints the argument, null if there is none, and gives null. -/
def printArg (arg : Option Group) : Eval Context Value := do
  let v ← match arg with
    | some g => m.bracket ev [] g
    | none => pure .null
  Eval.modify fun c => c.printLine v.text
  pure .null

/-- The frame of a call. The argument is evaluated only if the closure has a parameter for it. -/
def seed (param : Option String) (arg : Option Group) : Eval Context Frame :=
  match param, arg with
  | some name, some g => do
    let v ← m.bracket ev [] g
    pure [(name, v)]
  | _, _ => pure []

/-- Runs a body without the local frames, which are back afterwards however it ended. -/
def body (frame : Frame) (g : Group) : Eval Context Value := fun c =>
  (m.bracket ev frame g c.detach.2).afterwards fun d => d.attach c.detach.1

def callClosure (name : String) (arg : Option Group) : Eval Context Value := fun c =>
  match c.scopes.resolve name with
  | .closure param g => (do m.body ev (← m.seed ev param arg) g : Eval Context Value) c
  | _ => .failed (.notAFunction name) c

def call (name : String) (arg : Option Group) : Eval Context Value :=
  if name = printName then m.printArg ev arg else m.callClosure ev name arg

end Machine
end Bracket
