import Bracket.Session

/-!
# Bracket.Proofs.Steps

Evaluation one step at a time. A configuration says what is done next, what waits for its result,
innermost first, and in which context. Each step changes the context at most once, so the contexts
of the configurations passed on the way are all the moments of an evaluation, also of one that
never ends.

* `Machine.step`: one step; a value or an error that nothing waits for is final.
* `Steps m s s'`: `s'` is reached from `s`.
* `Entry`, `Machine.eval`: the ways in which an evaluation can be begun, and what they give.
* `Reached`: the contexts of a session, with the number of scopes that are open in them.
-/

namespace Bracket

/-- Where the reduction of a list of terms stands: inside the sweep over one chunk. -/
structure Place where
  tier : Tier
  looser : List Tier
  before : List Operand
  passed : List Operand
  /-- What is left of the chunks that have been reduced. -/
  done : List Operand
  others : List (List Operand)

namespace Place

def start (done chunk : List Operand) (others : List (List Operand)) : Place :=
  ⟨.power, [.product, .sum, .comparison, .assignment], chunk.reverse, [], done, others⟩

/-- The place after a reduction, whose literal stands where its operands were. -/
def reduced (p : Place) (v : Option Float) : Place := { p with passed := .reduced v :: p.passed }

end Place

inductive Waiting where
  | left (op : Op) (right : Operand) (place : Place)
  | right (op : Op) (x : Float) (place : Place)
  | target (name : String) (place : Place)
  | operand (rest : List Operand)
  /-- A frame has been pushed and has to go. -/
  | leave (seed : Frame)
  | branch (whenTrue whenFalse : Group)
  /-- A loop has run its body `count` times; `around` other loops were running when it began. -/
  | again (name : String) (body : Group) (count : UInt64) (around : Nat)
  | cut (name : String)
  | print
  | argument (param : String) (body : Group)
  /-- Frames have been taken away and have to come back. -/
  | attach (frames : List Frame)
  | program

inductive Task where
  | value (v : Value)
  | error (e : RuntimeError)
  | term (t : Term)
  | bracket (seed : Frame) (g : Group)
  | chunks (done : List Operand) (others : List (List Operand))
  | sweep (place : Place)
  | rest (last : Value) (operands : List Operand)

structure Config where
  task : Task
  waiting : List Waiting
  context : Context

def Operand.task : Operand → Task
  | .source t => .term t
  | .reduced v => .value (Value.ofLiteral v)

namespace Machine

/-! ## Lists of terms -/

def reduceStep (op : Op) (left right : Operand) (p : Place) (k : List Waiting) (c : Context) :
    Config :=
  if op = .assign then
    match left with
    | .source (.ident name) => ⟨right.task, .target name p :: k, c⟩
    | _ => ⟨.error .assignmentToNonIdent, k, c⟩
  else ⟨left.task, .left op right p :: k, c⟩

def sweepStep (p : Place) (k : List Waiting) (c : Context) : Config :=
  match p.before with
  | [] =>
    match p.looser with
    | [] => ⟨.chunks (p.done ++ p.passed) p.others, k, c⟩
    | tier :: looser => ⟨.sweep ⟨tier, looser, p.passed.reverse, [], p.done, p.others⟩, k, c⟩
  | x :: before =>
    match p.tier.op? x with
    | none => ⟨.sweep { p with before := before, passed := x :: p.passed }, k, c⟩
    | some op =>
      match before with
      | [] => ⟨.error (.missingLeftOperand op), k, c⟩
      | left :: before =>
        if left.op?.isSome then ⟨.error (.missingLeftOperand op), k, c⟩
        else
          match p.passed with
          | [] => ⟨.error (.missingRightOperand op), k, c⟩
          | right :: passed =>
            if right.op?.isSome then ⟨.error (.missingRightOperand op), k, c⟩
            else reduceStep op left right { p with before := before, passed := passed } k c

/-! ## Terms -/

/-- The body of a closure is begun without the local frames. -/
def bodyStep (seed : Frame) (body : Group) (k : List Waiting) (c : Context) : Config :=
  ⟨.bracket seed body, .attach c.detach.1 :: k, c.detach.2⟩

def closureStep (param : Option String) (body : Group) (arg : Option Group) (k : List Waiting)
    (c : Context) : Config :=
  match param, arg with
  | some name, some g => ⟨.bracket [] g, .argument name body :: k, c⟩
  | _, _ => bodyStep [] body k c

def callStep (name : String) (arg : Option Group) (k : List Waiting) (c : Context) : Config :=
  if name = printName then
    match arg with
    | some g => ⟨.bracket [] g, .print :: k, c⟩
    | none => ⟨.value .null, .print :: k, c⟩
  else
    match c.scopes.resolve name with
    | .closure param body => closureStep param body arg k c
    | _ => ⟨.error (.notAFunction name), k, c⟩

def termStep (k : List Waiting) (c : Context) : Term → Config
  | .literal v => ⟨.value (Value.ofLiteral v), k, c⟩
  | .ident name => ⟨.value (c.scopes.resolve name), k, c⟩
  | .op o => ⟨.error (.unexpectedOperator o), k, c⟩
  | .group g => ⟨.bracket [] g, k, c⟩
  | .cond test whenTrue whenFalse => ⟨.bracket [] test, .branch whenTrue whenFalse :: k, c⟩
  | .loop name body =>
    if name ∈ c.loops then ⟨.error (.loopAlreadyActive name), k, c⟩
    else ⟨.value .null, .again name body 0 c.loops.length :: k, c.startLoop name⟩
  | .brk name value => ⟨.bracket [] value, .cut name :: k, c⟩
  | .closure param body => ⟨.value (.closure param body), k, c⟩
  | .call name arg => callStep name arg k c

def bracketStep (m : Machine) (seed : Frame) (g : Group) (k : List Waiting) (c : Context) :
    Config :=
  if m.maxDepth ≤ c.depth then ⟨.error (.recursionLimit m.maxDepth), k, c⟩
  else ⟨.chunks [] (Bracket.chunks g), .leave seed :: k, c.enter seed⟩

/-! ## Values and errors -/

/-- The body runs again as long as its loop is the innermost one. -/
def againStep (m : Machine) (v : Value) (name : String) (body : Group) (count : UInt64)
    (around : Nat) (k : List Waiting) (c : Context) : Config :=
  if c.loops.head? = some name then
    match m.exhausted? count with
    | some limit => ⟨.error (.iterationLimit name limit), .again name body count around :: k, c⟩
    | none => ⟨.bracket [] body, .again name body (count + 1) around :: k, c⟩
  else ⟨.value v, k, c⟩

def numberStep (v : Value) (op : Op) (k : List Waiting) (c : Context) (next : Float → Config) :
    Config :=
  match v.asNumber op with
  | .error e => ⟨.error e, k, c⟩
  | .ok x => next x

def resultStep (m : Machine) (op : Op) (x y : Float) (p : Place) (k : List Waiting) (c : Context) :
    Config :=
  match m.arithmetic.result? op x y with
  | some z => ⟨.sweep (p.reduced (some z)), k, c⟩
  | none => ⟨.error (.unexpectedOperator op), k, c⟩

def resume (m : Machine) (v : Value) (k : List Waiting) (c : Context) : Waiting → Config
  | .left op right p => numberStep v op k c fun x => ⟨right.task, .right op x p :: k, c⟩
  | .right op x p => numberStep v op k c fun y => m.resultStep op x y p k c
  | .target name p => ⟨.sweep (p.reduced v.toLiteral), k, c.assign name v⟩
  | .operand rest => ⟨.rest v rest, k, c⟩
  | .leave _ => ⟨.value v, k, c.leave⟩
  | .branch whenTrue whenFalse => ⟨.bracket [] (if v.truthy then whenTrue else whenFalse), k, c⟩
  | .again name body count around => m.againStep v name body count around k c
  | .cut name =>
    match Context.around? name c.loops with
    | some outer => ⟨.value v, k, { c with loops := outer }⟩
    | none => ⟨.error (.unknownLoop name), k, c⟩
  | .print => ⟨.value .null, k, c.printLine v.text⟩
  | .argument param body => bodyStep [(param, v)] body k c
  | .attach frames => ⟨.value v, k, c.attach frames⟩
  | .program => ⟨.value v, k, c⟩

/-- Hands an error to what waits for a value: some of it tidies up, none of it stops the error. -/
def unwind (c : Context) : Waiting → Context
  | .leave _ => c.leave
  | .again _ _ _ around => c.keepLoops around
  | .attach frames => c.attach frames
  | .program => { c with loops := [] }
  | _ => c

/-! ## Steps -/

def step (m : Machine) (s : Config) : Option Config :=
  match s.task, s.waiting with
  | .value _, [] | .error _, [] => none
  | .value v, w :: k => some (m.resume v k s.context w)
  | .error e, w :: k => some ⟨.error e, k, unwind s.context w⟩
  | .term t, k => some (termStep k s.context t)
  | .bracket seed g, k => some (m.bracketStep seed g k s.context)
  | .chunks done [], k => some ⟨.rest .null done, k, s.context⟩
  | .chunks done (chunk :: others), k =>
    some ⟨.sweep (.start done chunk others), k, s.context⟩
  | .sweep p, k => some (sweepStep p k s.context)
  | .rest last [], k => some ⟨.value last, k, s.context⟩
  | .rest _ (x :: operands), k => some ⟨x.task, .operand operands :: k, s.context⟩

end Machine

theorem Machine.waiting_of_step_none {m : Machine} {s : Config} (h : m.step s = none) :
    s.waiting = [] := by
  obtain ⟨task, k, c⟩ := s
  cases k with
  | nil => rfl
  | cons w k =>
    cases task with
    | chunks done others => cases others <;> cases h
    | rest last operands => cases operands <;> cases h
    | _ => cases h

inductive Steps (m : Machine) : Config → Config → Prop where
  | refl {s : Config} : Steps m s s
  | cons {s s' s'' : Config} : m.step s = some s' → Steps m s' s'' → Steps m s s''

namespace Steps

variable {m : Machine} {s s' s'' : Config}

theorem single (h : m.step s = some s') : Steps m s s' := .cons h .refl

theorem trans (h₁ : Steps m s s') (h₂ : Steps m s' s'') : Steps m s s'' := by
  induction h₁ with
  | refl => exact h₂
  | cons hs _ ih => exact .cons hs (ih h₂)

end Steps

/-! ## Entries -/

inductive Entry where
  | term (t : Term)
  | terms (g : Group)
  | group (seed : Frame) (g : Group)
  | cond (test whenTrue whenFalse : Group)
  | loop (name : String) (body : Group)
  | brk (name : String) (value : Group)
  | call (name : String) (arg : Option Group)
  | program (g : Group)

namespace Entry

def start (c : Context) : Entry → Config
  | .term t => ⟨.term t, [], c⟩
  | .terms g => ⟨.chunks [] (chunks g), [], c⟩
  | .group seed g => ⟨.bracket seed g, [], c⟩
  | .cond test whenTrue whenFalse => ⟨.term (.cond test whenTrue whenFalse), [], c⟩
  | .loop name body => ⟨.term (.loop name body), [], c⟩
  | .brk name value => ⟨.term (.brk name value), [], c⟩
  | .call name arg => ⟨.term (.call name arg), [], c⟩
  | .program g => ⟨.bracket [] g, [.program], c⟩

end Entry

def Machine.eval (m : Machine) : Entry → Eval Context Value
  | .term t => m.evalTerm t
  | .terms g => m.evalTerms g
  | .group seed g => m.evalGroup seed g
  | .cond test whenTrue whenFalse => m.cond m.evalTerm test whenTrue whenFalse
  | .loop name body => m.loop m.evalTerm name body
  | .brk name value => m.brk m.evalTerm name value
  | .call name arg => m.call m.evalTerm name arg
  | .program g => m.evalProgram g

/-! ## Sessions -/

/-- The state that a finished computation leaves, whether it succeeded or not. -/
def Outcome.state? {ε σ α : Type} : Outcome ε σ α → Option σ
  | .done _ s => some s
  | .failed _ s => some s
  | .unfinished => none

/-- The contexts that a session can reach from a fresh one. Scopes may be opened and closed around
any calls; the number says how many are open. -/
inductive Reached (m : Machine) : Nat → Context → Prop where
  | fresh : Reached m 0 Context.fresh
  | opened {n : Nat} {c : Context} (seed : Frame) : Reached m n c → Reached m (n + 1) (c.enter seed)
  | closed {n : Nat} {c : Context} : Reached m (n + 1) c → Reached m n c.leave
  | evaluated {n : Nat} {c d : Context} {entry : Entry} :
      Reached m n c → (m.eval entry c).state? = some d → Reached m n d
  | ran {n : Nat} {c d : Context} {source : String} :
      Reached m n c → (m.run source c).state? = some d → Reached m n d

end Bracket
