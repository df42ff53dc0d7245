/-!
# Bracket.Tree.Op

The binary operators and the comma, which separates chunks and is never reduced.
-/

namespace Bracket

inductive Op where
  | add
  | sub
  | mul
  | div
  | pow
  | assign
  | less
  | greater
  | comma
deriving DecidableEq

namespace Op

def letters : Op → List Char
  | .add => ['+']
  | .sub => ['-']
  | .mul => ['*']
  | .div => ['/']
  | .pow => ['*', '*']
  | .assign => ['=']
  | .less => ['<']
  | .greater => ['>']
  | .comma => [',']

def symbol (o : Op) : String := String.ofList o.letters

def all : List Op := [.add, .sub, .mul, .div, .pow, .assign, .less, .greater, .comma]

end Op

end Bracket
