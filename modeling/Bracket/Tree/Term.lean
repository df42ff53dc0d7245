import Bracket.Tree.Op

/-!
# Bracket.Tree.Term

The tree of a program. A group is the content of one pair of brackets, its terms in the order in
which they were written; precedence plays no part until the group is evaluated.

`same` compares trees by content. A literal that is not a number differs from itself, and the two
zeros are the same.
-/

namespace Bracket

inductive Term where
  | literal (value : Option Float)
  | ident (name : String)
  | op (op : Op)
  | group (content : List Term)
  | cond (test whenTrue whenFalse : List Term)
  | loop (name : String) (body : List Term)
  | brk (name : String) (value : List Term)
  | closure (param : Option String) (body : List Term)
  | call (name : String) (arg : Option (List Term))

abbrev Group := List Term

namespace Term

def op? : Term → Option Op
  | .op o => some o
  | _ => none

mutual

def same : Term → Term → Bool
  | .literal a, .literal b => a == b
  | .ident a, .ident b => a == b
  | .op a, .op b => a == b
  | .group a, .group b => sameAll a b
  | .cond a b c, .cond a' b' c' => sameAll a a' && sameAll b b' && sameAll c c'
  | .loop n a, .loop n' a' => n == n' && sameAll a a'
  | .brk n a, .brk n' a' => n == n' && sameAll a a'
  | .closure p a, .closure p' a' => p == p' && sameAll a a'
  | .call n a, .call n' a' => n == n' && sameArg a a'
  | _, _ => false

def sameAll : List Term → List Term → Bool
  | [], [] => true
  | a :: as, b :: bs => same a b && sameAll as bs
  | _, _ => false

def sameArg : Option (List Term) → Option (List Term) → Bool
  | none, none => true
  | some a, some b => sameAll a b
  | _, _ => false

end

instance : BEq Term := ⟨same⟩

end Term

end Bracket
