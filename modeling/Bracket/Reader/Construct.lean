import Bracket.Reader.ParseError
import Bracket.Tree.Term

/-!
# Bracket.Reader.Construct

A construct that still waits for some of its brackets. A slot is empty while it waits; a part that
may be left out starts as an empty group and is cleared when its keyword asks for it.
-/

namespace Bracket
namespace Reader

inductive Construct where
  | cond (test whenTrue whenFalse : Option Group)
  | loop (name : String) (body : Option Group)
  | brk (name : String) (value : Option Group)
  | closure (param : Option String) (body : Option Group)
  | call (name : String) (arg : Option Group)

namespace Construct

/-- A conditional before its test. Both branches may be left out. -/
def newCond : Construct := .cond none (some []) (some [])

/-- A break before its value, which may be left out. -/
def newBreak (name : String) : Construct := .brk name (some [])

def keyword : Construct → Keyword
  | .cond .. => .ifTest
  | .loop .. => .loop
  | .brk .. => .brk
  | .closure .. => .pipe
  | .call .. => .call

inductive Slot where
  | test
  | whenTrue
  | whenFalse
  | body
deriving DecidableEq

/-- Empties a slot; a slot the construct does not have is left alone. -/
def clear (slot : Slot) (construct : Construct) : Construct :=
  match slot, construct with
  | .test, .cond _ b c => .cond none b c
  | .whenTrue, .cond a _ c => .cond a none c
  | .whenFalse, .cond a b _ => .cond a b none
  | .body, .loop name _ => .loop name none
  | .body, .brk name _ => .brk name none
  | .body, .closure param _ => .closure param none
  | .body, .call name _ => .call name none
  | _, construct => construct

/-- Puts a group into the first empty slot, or hands it back. -/
def fill : Construct → Group → Construct × Option Group
  | .cond none b c, g => (.cond (some g) b c, none)
  | .cond (some a) none c, g => (.cond (some a) (some g) c, none)
  | .cond (some a) (some b) none, g => (.cond (some a) (some b) (some g), none)
  | .loop name none, g => (.loop name (some g), none)
  | .brk name none, g => (.brk name (some g), none)
  | .closure param none, g => (.closure param (some g), none)
  | .call name none, g => (.call name (some g), none)
  | construct, g => (construct, some g)

/-- An empty bracket after a call is no argument. -/
def argument (g : Group) : Option Group := if g.isEmpty then none else some g

/-- The finished term, if no slot is empty. -/
def complete : Construct → Except ParseError Term
  | .cond (some a) (some b) (some c) => .ok (.cond a b c)
  | .loop name (some g) => .ok (.loop name g)
  | .brk name (some g) => .ok (.brk name g)
  | .closure param (some g) => .ok (.closure param g)
  | .call name (some g) => .ok (.call name (argument g))
  | construct => .error (.incompleteConstruct construct.keyword)

end Construct

end Reader
end Bracket
