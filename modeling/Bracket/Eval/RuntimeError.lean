import Bracket.Tree.Op

/-!
# Bracket.Eval.RuntimeError

Why an evaluation stopped. An error ends the whole program; nothing resumes after it.
-/

namespace Bracket

inductive Kind where
  | null
  | number
  | closure
deriving DecidableEq

def Kind.name : Kind → String
  | .null => "null"
  | .number => "number"
  | .closure => "closure"

inductive RuntimeError where
  | missingLeftOperand (op : Op)
  | missingRightOperand (op : Op)
  | assignmentToNonIdent
  | expectedNumber (op : Op) (found : Kind)
  | notAFunction (name : String)
  | loopAlreadyActive (name : String)
  | unknownLoop (name : String)
  | unexpectedOperator (op : Op)
  | recursionLimit (limit : Nat)
  | iterationLimit (name : String) (limit : UInt64)
deriving DecidableEq

namespace RuntimeError

def detail : RuntimeError → String
  | .missingLeftOperand op => "No left operand for '" ++ op.symbol ++ "'."
  | .missingRightOperand op => "No right operand for '" ++ op.symbol ++ "'."
  | .assignmentToNonIdent => "Assignment allowed only to idents."
  | .expectedNumber op found =>
    "Operand of '" ++ op.symbol ++ "' must be a number, found " ++ found.name ++ "."
  | .notAFunction name => "'" ++ name ++ "' is not a function."
  | .loopAlreadyActive name => "Loop '" ++ name ++ "' is already running."
  | .unknownLoop name => "No running loop named '" ++ name ++ "' to break."
  | .unexpectedOperator op => "Can't calculate value of '" ++ op.symbol ++ "'."
  | .recursionLimit limit => "Maximum recursion depth of " ++ toString limit ++ " exceeded."
  | .iterationLimit name limit =>
    "Loop '" ++ name ++ "' exceeded " ++ toString limit.toNat ++ " iterations."

def message (e : RuntimeError) : String := "Runtime error: " ++ e.detail

end RuntimeError

end Bracket
