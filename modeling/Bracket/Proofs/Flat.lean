import Bracket.Session

/-!
# Bracket.Proofs.Flat

The evaluator a reader of the language has in mind: names are looked up in two places only, the
parameter of the innermost call in progress and the global names. There are no frames; a bracket
changes nothing but the depth.

Depth, loops, limits and the reduction of operators are those of `Bracket.Machine`.
-/

namespace Bracket

structure Flat where
  /-- The parameter of the innermost call in progress, with its value, if the call has one. -/
  param : Option (String × Value)
  global : Frame
  loops : List String
  depth : Nat
  transcript : Transcript

namespace Flat

def fresh : Flat := ⟨none, [], [], 0, Transcript.empty⟩

def globalValue (f : Flat) (name : String) : Value := (f.global.get? name).getD .null

/-- The parameter hides a global name also while it holds null. -/
def resolve (f : Flat) (name : String) : Value :=
  match f.param with
  | some (param, v) => if param = name then v else f.globalValue name
  | none => f.globalValue name

def assignGlobal (f : Flat) (name : String) (v : Value) : Flat :=
  { f with global := f.global.set name v }

/-- A parameter that holds null is not written to. -/
def assign (f : Flat) (name : String) (v : Value) : Flat :=
  match f.param with
  | some (param, old) =>
    if param = name ∧ old.isNull = false then { f with param := some (param, v) }
    else f.assignGlobal name v
  | none => f.assignGlobal name v

section Evaluation

variable (m : Machine) (ev : Term → Eval Flat Value)

def evaluator : Evaluator Flat where
  term := ev
  assign name v f := f.assign name v
  arithmetic := m.arithmetic

def bracket (g : Group) : Eval Flat Value := fun f =>
  if m.maxDepth ≤ f.depth then .failed (.recursionLimit m.maxDepth) f
  else
    ((evaluator m ev).terms g { f with depth := f.depth + 1 }).afterwards fun d =>
      { d with depth := d.depth - 1 }

def cond (test whenTrue whenFalse : Group) : Eval Flat Value := do
  let v ← bracket m ev test
  bracket m ev (if v.truthy then whenTrue else whenFalse)

/-! ## Loops -/

def iterate (name : String) (body : Group) :
    Nat → UInt64 → Value → Flat → Outcome RuntimeError Flat Value
  | 0, _, _, _ => .unfinished
  | rounds + 1, count, last, f =>
    if f.loops.head? = some name then
      match m.exhausted? count with
      | some limit => .failed (.iterationLimit name limit) f
      | none =>
        match bracket m ev body f with
        | .done v f => iterate name body rounds (count + 1) v f
        | .failed e f => .failed e f
        | .unfinished => .unfinished
    else .done last f

def loop (name : String) (body : Group) : Eval Flat Value := fun f =>
  if name ∈ f.loops then .failed (.loopAlreadyActive name) f
  else
    (iterate m ev name body m.rounds 0 .null { f with loops := name :: f.loops }).onFailure
      fun d => { d with loops := d.loops.drop (d.loops.length - f.loops.length) }

def endLoop (name : String) : Eval Flat Unit := fun f =>
  match Context.around? name f.loops with
  | some outer => .done () { f with loops := outer }
  | none => .failed (.unknownLoop name) f

def brk (name : String) (value : Group) : Eval Flat Value := do
  let v ← bracket m ev value
  endLoop name
  pure v

/-! ## Calls -/

def printArg (arg : Option Group) : Eval Flat Value := do
  let v ← match arg with
    | some g => bracket m ev g
    | none => pure .null
  Eval.modify fun f => { f with transcript := f.transcript.printLine v.text }
  pure .null

/-- The parameter of a call, its argument evaluated where the call stands. -/
def argument (param : Option String) (arg : Option Group) :
    Eval Flat (Option (String × Value)) :=
  match param, arg with
  | some name, some g => do
    let v ← bracket m ev g
    pure (some (name, v))
  | _, _ => pure none

/-- Runs a body with its own parameter; afterwards the one of the caller is back. -/
def body (param : Option (String × Value)) (g : Group) : Eval Flat Value := fun f =>
  (bracket m ev g { f with param := param }).afterwards fun d => { d with param := f.param }

def callClosure (name : String) (arg : Option Group) : Eval Flat Value := fun f =>
  match f.resolve name with
  | .closure param g => (do body m ev (← argument m ev param arg) g : Eval Flat Value) f
  | _ => .failed (.notAFunction name) f

def call (name : String) (arg : Option Group) : Eval Flat Value :=
  if name = Machine.printName then printArg m ev arg else callClosure m ev name arg

/-! ## Programs -/

def termWith : Term → Eval Flat Value
  | .literal v => pure (Value.ofLiteral v)
  | .ident name => fun f => .done (f.resolve name) f
  | .op o => Eval.fail (.unexpectedOperator o)
  | .group g => bracket m ev g
  | .cond test whenTrue whenFalse => cond m ev test whenTrue whenFalse
  | .loop name body => loop m ev name body
  | .brk name value => brk m ev name value
  | .closure param body => pure (.closure param body)
  | .call name arg => call m ev name arg

end Evaluation

def termAt (m : Machine) : Nat → Term → Eval Flat Value
  | 0, _ => fun _ => .unfinished
  | levels + 1, t => termWith m (termAt m levels) t

def evalProgram (m : Machine) (g : Group) : Eval Flat Value := fun f =>
  (bracket m (termAt m m.levels) g f).onFailure fun d => { d with loops := [] }

def run (m : Machine) (source : String) (f : Flat) : Outcome Failure Flat Value :=
  match Reader.parse source with
  | .error e => .failed (.parse e) f
  | .ok g =>
    match evalProgram m g f with
    | .done v f => .done v f
    | .failed e f => .failed (.runtime e) f
    | .unfinished => .unfinished

end Flat

/-! ## Sequences of runs -/

/-- What can be seen of a state between two runs. -/
structure View where
  global : Frame
  loops : List String
  depth : Nat
  transcript : Transcript

def Context.view (c : Context) : View := ⟨c.scopes.global, c.loops, c.depth, c.transcript⟩

def Flat.view (f : Flat) : View := ⟨f.global, f.loops, f.depth, f.transcript⟩

def Outcome.mapState {ε σ τ α : Type} (f : σ → τ) : Outcome ε σ α → Outcome ε τ α
  | .done a s => .done a (f s)
  | .failed e s => .failed e (f s)
  | .unfinished => .unfinished

/-- Runs texts one after another, each in the state that the one before it left; a run that does
not finish is the last one. -/
def runAll {σ : Type} (run : String → σ → Outcome Failure σ Value) (s : σ) :
    List String → List (Outcome Failure σ Value)
  | [] => []
  | source :: rest =>
    match run source s with
    | .done v t => .done v t :: runAll run t rest
    | .failed e t => .failed e t :: runAll run t rest
    | .unfinished => [.unfinished]

end Bracket
