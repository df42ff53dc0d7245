import Bracket.Reader.Construct

/-!
# Bracket.Reader.Builder

The tree under construction: one frame for the program and one for each open bracket. A frame
lists its nodes newest first, so that the node a closing bracket or a keyword speaks of is at the
head.
-/

namespace Bracket
namespace Reader

inductive Node where
  | done (term : Term)
  | pending (construct : Construct)

namespace Node

def complete : Node → Except ParseError Term
  | .done t => .ok t
  | .pending c => c.complete

/-- The nodes of a frame as a group, in the order in which they were written. -/
def completeAll (nodes : List Node) : Except ParseError Group := nodes.reverse.mapM complete

/-- Hands a closed bracket to the newest node of a frame, or adds it as a group of its own. -/
def attach (g : Group) : List Node → List Node
  | .pending c :: rest =>
    match c.fill g with
    | (filled, none) => .pending filled :: rest
    | (c, some g) => .done (.group g) :: .pending c :: rest
  | nodes => .done (.group g) :: nodes

end Node

/-- The innermost frame and the frames around it, nearest first. -/
structure Builder where
  frame : List Node
  outer : List (List Node)

/-- The most brackets that may be open at once. -/
def maxNesting : Nat := 1024

namespace Builder

def empty : Builder := ⟨[], []⟩

def push (b : Builder) (node : Node) : Builder := ⟨node :: b.frame, b.outer⟩

def pushTerm (b : Builder) (t : Term) : Builder := b.push (.done t)

def openBracket (b : Builder) (position : Nat) : Except ParseError Builder :=
  if b.outer.length < maxNesting then .ok ⟨[], b.frame :: b.outer⟩
  else .error (.nestingLimit maxNesting position)

def closeBracket (b : Builder) (position : Nat) : Except ParseError Builder :=
  match b.outer with
  | [] => .error (.unopenedBracket position)
  | below :: outer => (Node.completeAll b.frame).map fun g => ⟨Node.attach g below, outer⟩

/-- Empties a slot of the construct that was begun last, if it is a conditional. -/
def clearBranch? (b : Builder) (slot : Construct.Slot) : Option Builder :=
  match b.frame with
  | .pending (.cond x y z) :: rest =>
    some ⟨.pending ((Construct.cond x y z).clear slot) :: rest, b.outer⟩
  | _ => none

/-- Empties the value of the construct that was begun last, if it is a break. -/
def clearValue? (b : Builder) : Option Builder :=
  match b.frame with
  | .pending (.brk name value) :: rest =>
    some ⟨.pending ((Construct.brk name value).clear .body) :: rest, b.outer⟩
  | _ => none

/-- The whole program, if no bracket is left open. -/
def finish (b : Builder) : Except ParseError Group :=
  if b.outer.isEmpty then Node.completeAll b.frame else .error (.unclosedBracket b.outer.length)

end Builder

end Reader
end Bracket
