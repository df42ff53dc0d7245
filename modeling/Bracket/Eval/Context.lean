import Bracket.Eval.Scopes
import Bracket.Eval.Transcript

/-!
# Bracket.Eval.Context

What an evaluation reads and changes: the frames, the loops that are running, how deep groups are
nested, and the printed text.
-/

namespace Bracket

structure Context where
  scopes : Scopes
  /-- The names of the running loops, innermost first. -/
  loops : List String
  depth : Nat
  transcript : Transcript

namespace Context

def fresh : Context := ⟨Scopes.empty, [], 0, Transcript.empty⟩

/-- One level deeper, with a new innermost frame. -/
def enter (c : Context) (f : Frame) : Context :=
  { c with scopes := c.scopes.push f, depth := c.depth + 1 }

def leave (c : Context) : Context :=
  { c with scopes := c.scopes.pop, depth := c.depth - 1 }

def assign (c : Context) (name : String) (v : Value) : Context :=
  { c with scopes := c.scopes.assign name v }

def printLine (c : Context) (line : String) : Context :=
  { c with transcript := c.transcript.printLine line }

def startLoop (c : Context) (name : String) : Context := { c with loops := name :: c.loops }

/-- Keeps the `n` outermost loops. -/
def keepLoops (c : Context) (n : Nat) : Context :=
  { c with loops := c.loops.drop (c.loops.length - n) }

/-- The loops around the innermost one with the name, if it is running. -/
def around? (name : String) : List String → Option (List String)
  | [] => none
  | n :: outer => if n = name then some outer else around? name outer

def detach (c : Context) : List Frame × Context :=
  (c.scopes.detach.1, { c with scopes := c.scopes.detach.2 })

def attach (c : Context) (frames : List Frame) : Context :=
  { c with scopes := c.scopes.attach frames }

def drain (c : Context) : String × Context :=
  (c.transcript.drain.1, { c with transcript := c.transcript.drain.2 })

end Context

end Bracket
