import Bracket.Proofs.Lexemes

/-!
# Bracket.Proofs.Grammar

The recursive grammar of programs over lexical units.

    items     = item*
    item      = leaf | bracketed | if bracketed branches | loop NAME bracketed
              | break NAME values | | [NAME] | bracketed | @ NAME bracketed
    bracketed = ( items )
    branches  = (then bracketed | else bracketed)*
    values    = (with bracketed)*

A phrase carries what it denotes, and a derivation the number of brackets open around it.
-/

namespace Bracket
namespace Reader

open Text

/-- A term that is written as one unit. -/
inductive Leaf : Lexeme → Term → Prop
  | null : Leaf .null (.literal none)
  | digits {run : String} {x : Float} (valid : Number.read? run.toList = some x) :
      Leaf (.digits run) (.literal (some x))
  | quoted (c : Char) (run : List Char) :
      Leaf (.quoted (c :: run)) (.literal (some (Float.ofNat (Cursor.leadingUnit c))))
  | ident (run : String) : Leaf (.name run) (.ident run)
  | op (o : Op) : Leaf (.op o) (.op o)

inductive Phrase where
  | items (terms : List Term)
  | item (term : Term)
  | bracketed (content : Group)
  /-- Turns the first two groups, the branches so far, into the last two. -/
  | branches (whenTrue whenFalse whenTrue' whenFalse' : Group)
  /-- Turns the first group, the value so far, into the second. -/
  | values (value value' : Group)

/-- The units derive the phrase inside `d` open brackets. -/
inductive Derives : Nat → Phrase → List Lexeme → Prop
  | nil {d : Nat} : Derives d (.items []) []
  | cons {d : Nat} {t : Term} {ts : List Term} {us vs : List Lexeme}
      (head : Derives d (.item t) us) (tail : Derives d (.items ts) vs) :
      Derives d (.items (t :: ts)) (us ++ vs)
  | leaf {d : Nat} {u : Lexeme} {t : Term} (leaf : Leaf u t) : Derives d (.item t) [u]
  | group {d : Nat} {g : Group} {us : List Lexeme} (content : Derives d (.bracketed g) us) :
      Derives d (.item (.group g)) us
  | cond {d : Nat} {g x y : Group} {us vs : List Lexeme} (test : Derives d (.bracketed g) us)
      (branches : Derives d (.branches [] [] x y) vs) :
      Derives d (.item (.cond g x y)) (.ifTest :: us ++ vs)
  | loop {d : Nat} {n : String} {g : Group} {us : List Lexeme}
      (body : Derives d (.bracketed g) us) : Derives d (.item (.loop n g)) (.loop n :: us)
  | brk {d : Nat} {n : String} {g : Group} {us : List Lexeme}
      (values : Derives d (.values [] g) us) : Derives d (.item (.brk n g)) (.brk n :: us)
  | closure {d : Nat} {param : Option String} {g : Group} {us : List Lexeme}
      (body : Derives d (.bracketed g) us) :
      Derives d (.item (.closure param g)) (.pipes param :: us)
  | call {d : Nat} {n : String} {g : Group} {us : List Lexeme}
      (arg : Derives d (.bracketed g) us) :
      Derives d (.item (.call n (if g = [] then none else some g))) (.call n :: us)
  | bracketed {d : Nat} {g : Group} {us : List Lexeme} (room : d < maxNesting)
      (content : Derives (d + 1) (.items g) us) :
      Derives d (.bracketed g) (.opening :: us ++ [.closing])
  | noBranch {d : Nat} {x y : Group} : Derives d (.branches x y x y) []
  | thenBranch {d : Nat} {g x y x' y' : Group} {us vs : List Lexeme}
      (branch : Derives d (.bracketed g) us) (rest : Derives d (.branches g y x' y') vs) :
      Derives d (.branches x y x' y') (.thenBranch :: us ++ vs)
  | elseBranch {d : Nat} {g x y x' y' : Group} {us vs : List Lexeme}
      (branch : Derives d (.bracketed g) us) (rest : Derives d (.branches x g x' y') vs) :
      Derives d (.branches x y x' y') (.elseBranch :: us ++ vs)
  | noValue {d : Nat} {v : Group} : Derives d (.values v v) []
  | withValue {d : Nat} {g v v' : Group} {us vs : List Lexeme}
      (value : Derives d (.bracketed g) us) (rest : Derives d (.values g v') vs) :
      Derives d (.values v v') (.withValue :: us ++ vs)

end Reader
end Bracket
