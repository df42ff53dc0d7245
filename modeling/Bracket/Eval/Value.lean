import Bracket.Eval.RuntimeError
import Bracket.Number.Text
import Bracket.Tree.Term

/-!
# Bracket.Eval.Value

What a term evaluates to. A closure has no literal form: where a value is put back into a list of
terms it becomes null.
-/

namespace Bracket

inductive Value where
  | null
  | number (x : Float)
  | closure (param : Option String) (body : Group)

namespace Value

def ofLiteral : Option Float → Value
  | none => .null
  | some x => .number x

def ofBool (b : Bool) : Value := .number (if b then 1.0 else 0.0)

/-- Closures and numbers other than zero. -/
def truthy : Value → Bool
  | .null => false
  | .number x => x != 0.0
  | .closure .. => true

def kind : Value → Kind
  | .null => .null
  | .number _ => .number
  | .closure .. => .closure

def isNull : Value → Bool
  | .null => true
  | _ => false

def asNumber (op : Op) : Value → Except RuntimeError Float
  | .number x => .ok x
  | v => .error (.expectedNumber op v.kind)

def toLiteral : Value → Option Float
  | .number x => some x
  | _ => none

def text : Value → String
  | .null => "null"
  | .number x => Number.print x
  | .closure .. => "<closure>"

/-- Equality of content; a value that is not a number differs from itself. -/
def same : Value → Value → Bool
  | .null, .null => true
  | .number x, .number y => x == y
  | .closure p a, .closure q b => p == q && Term.sameAll a b
  | _, _ => false

instance : BEq Value := ⟨same⟩

end Value

end Bracket
