import Bracket.Tree.Op

/-!
# Bracket.Eval.Arithmetic

What the operators compute on numbers. Comparisons give one or zero.
-/

namespace Bracket

structure Arithmetic where
  add : Float → Float → Float
  sub : Float → Float → Float
  mul : Float → Float → Float
  div : Float → Float → Float
  pow : Float → Float → Float
  less : Float → Float → Bool
  greater : Float → Float → Bool

namespace Arithmetic

/-- The operations of binary floating point. Division by zero is no error. -/
def binary64 : Arithmetic where
  add := Float.add
  sub := Float.sub
  mul := Float.mul
  div := Float.div
  pow := Float.pow
  less x y := decide (x < y)
  greater x y := decide (y < x)

def ofBool (b : Bool) : Float := if b then 1.0 else 0.0

/-- The result of an operator on two numbers; the comma and the assignment have none. -/
def result? (a : Arithmetic) (op : Op) (x y : Float) : Option Float :=
  match op with
  | .add => some (a.add x y)
  | .sub => some (a.sub x y)
  | .mul => some (a.mul x y)
  | .div => some (a.div x y)
  | .pow => some (a.pow x y)
  | .less => some (ofBool (a.less x y))
  | .greater => some (ofBool (a.greater x y))
  | .assign | .comma => none

end Arithmetic

end Bracket
