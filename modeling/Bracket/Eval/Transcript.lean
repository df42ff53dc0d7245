/-!
# Bracket.Eval.Transcript

The text printed so far and not yet taken away.
-/

namespace Bracket

structure Transcript where
  text : String

namespace Transcript

def empty : Transcript := ⟨""⟩

def printLine (t : Transcript) (line : String) : Transcript := ⟨t.text ++ line ++ "\n"⟩

def drain (t : Transcript) : String × Transcript := (t.text, empty)

end Transcript

end Bracket
