import Bracket.Eval.Arithmetic
import Bracket.Eval.Outcome
import Bracket.Eval.Value

/-!
# Bracket.Eval.Reduction

Evaluating a list of terms. Commas cut the list into chunks. In each chunk the operators are
reduced, tier by tier from the tightest and from the right within a tier: an operator and its two
neighbours become one literal. After all chunks are reduced, the operands that are left are
evaluated from left to right, and the last of them gives the value of the list.

Nothing here depends on what evaluating a term or assigning to a name means; both are parameters.
-/

namespace Bracket

/-- A term of a chunk, or the literal that a reduced operator left behind. -/
inductive Operand where
  | source (t : Term)
  | reduced (value : Option Float)

def Operand.op? : Operand → Option Op
  | .source t => t.op?
  | .reduced _ => none

/-! ## Tiers -/

inductive Tier where
  | power
  | product
  | sum
  | comparison
  | assignment
deriving DecidableEq

/-- The tiers, tightest first. -/
def Tier.all : List Tier := [.power, .product, .sum, .comparison, .assignment]

/-- The comma is in no tier. -/
def Op.tier? : Op → Option Tier
  | .pow => some .power
  | .mul | .div => some .product
  | .add | .sub => some .sum
  | .less | .greater => some .comparison
  | .assign => some .assignment
  | .comma => none

/-- The operator that an operand is, if it belongs to the tier. -/
def Tier.op? (tier : Tier) (x : Operand) : Option Op :=
  match x.op? with
  | some op => if op.tier? = some tier then some op else none
  | none => none

/-- The chunks between the commas; there is one more of them than there are commas. -/
def chunks : Group → List (List Operand)
  | [] => [[]]
  | t :: rest =>
    if t.op? = some .comma then [] :: chunks rest
    else
      match chunks rest with
      | [] => [[.source t]]
      | chunk :: others => (.source t :: chunk) :: others

/-! ## Operators -/

/-- What reduction has to be told about terms and names. -/
structure Evaluator (σ : Type) where
  term : Term → Eval σ Value
  assign : String → Value → σ → σ
  arithmetic : Arithmetic

namespace Evaluator

variable {σ : Type}

def operand (e : Evaluator σ) : Operand → Eval σ Value
  | .source t => e.term t
  | .reduced v => pure (Value.ofLiteral v)

def number (e : Evaluator σ) (op : Op) (x : Operand) : Eval σ Float := do
  let v ← e.operand x
  Eval.ofExcept (v.asNumber op)

/-- The target has to be a name; it is not evaluated. -/
def assignment (e : Evaluator σ) (target value : Operand) : Eval σ (Option Float) :=
  match target with
  | .source (.ident name) => do
    let v ← e.operand value
    Eval.modify (e.assign name v)
    pure v.toLiteral
  | _ => Eval.fail .assignmentToNonIdent

/-- The left operand is evaluated, and has to be a number, before the right one is looked at. -/
def binary (e : Evaluator σ) (op : Op) (left right : Operand) : Eval σ (Option Float) := do
  let x ← e.number op left
  let y ← e.number op right
  match e.arithmetic.result? op x y with
  | some z => pure (some z)
  | none => Eval.fail (.unexpectedOperator op)

def reduce (e : Evaluator σ) (op : Op) (left right : Operand) : Eval σ (Option Float) :=
  if op = .assign then e.assignment left right else e.binary op left right

/-! ## Chunks -/

/-- Goes through a chunk from right to left and reduces the operators of one tier. The first list
is what lies to the left, nearest first; the second is what has been passed and holds no operator
of the tier any more. -/
def sweep (e : Evaluator σ) (tier : Tier) : List Operand → List Operand → Eval σ (List Operand)
  | [], passed => pure passed
  | x :: before, passed =>
    match tier.op? x with
    | none => sweep e tier before (x :: passed)
    | some op =>
      match before with
      | [] => Eval.fail (.missingLeftOperand op)
      | left :: before =>
        if left.op?.isSome then Eval.fail (.missingLeftOperand op)
        else
          match passed with
          | [] => Eval.fail (.missingRightOperand op)
          | right :: passed =>
            if right.op?.isSome then Eval.fail (.missingRightOperand op)
            else do
              let v ← e.reduce op left right
              sweep e tier before (.reduced v :: passed)

def reduceTiers (e : Evaluator σ) : List Tier → List Operand → Eval σ (List Operand)
  | [], chunk => pure chunk
  | tier :: looser, chunk => do
    let chunk ← e.sweep tier chunk.reverse []
    reduceTiers e looser chunk

def reduceChunk (e : Evaluator σ) (chunk : List Operand) : Eval σ (List Operand) :=
  e.reduceTiers Tier.all chunk

/-- Reduces the chunks from left to right and joins what is left of them. -/
def reduceChunks (e : Evaluator σ) : List (List Operand) → Eval σ (List Operand)
  | [] => pure []
  | chunk :: others => do
    let left ← e.reduceChunk chunk
    let rest ← reduceChunks e others
    pure (left ++ rest)

/-- The value of the last operand, all of them evaluated in order. -/
def lastOf (e : Evaluator σ) (last : Value) : List Operand → Eval σ Value
  | [] => pure last
  | x :: rest => do
    let v ← e.operand x
    lastOf e v rest

/-- The value of a list of terms, null if nothing is left of it. -/
def terms (e : Evaluator σ) (g : Group) : Eval σ Value := do
  let left ← e.reduceChunks (chunks g)
  e.lastOf .null left

end Evaluator

end Bracket
