import Bracket.Eval.Run
import Bracket.Reader.Program

/-!
# Bracket.Session

Running texts one after another in one context. A text that is no program leaves the context as it
was; a program that fails keeps the global assignments it completed.

A session reads lines. Each line is answered by one record, whether it succeeds, fails or cannot
be decoded, and the next line goes on from the context it left.
-/

namespace Bracket

/-- Why a text has no value. -/
inductive Failure where
  | parse (error : Reader.ParseError)
  | runtime (error : RuntimeError)

def Failure.message : Failure → String
  | .parse e => e.message
  | .runtime e => e.message

namespace Machine

def run (m : Machine) (source : String) (c : Context) : Outcome Failure Context Value :=
  match Reader.parse source with
  | .error e => .failed (.parse e) c
  | .ok g =>
    match m.evalProgram g c with
    | .done v c => .done v c
    | .failed e c => .failed (.runtime e) c
    | .unfinished => .unfinished

def result (m : Machine) (source : String) : Outcome Failure Context Value :=
  m.run source Context.fresh

end Machine

namespace Session

/-! ## Records -/

def record (shown result : String) : String := "[ " ++ shown ++ " ] => " ++ result ++ "\n"

def unreadable : String := record "<unreadable>" "stream did not contain valid UTF-8"

/-- What one line prints, its record last, and the context after it. -/
def answer (m : Machine) (line : ByteArray) (c : Context) : Option (String × Context) :=
  match String.fromUTF8? line with
  | none => some (unreadable, c)
  | some source =>
    match m.run source c with
    | .done v c => some (c.drain.1 ++ record source v.text, c.drain.2)
    | .failed e c => some (c.drain.1 ++ record source e.message, c.drain.2)
    | .unfinished => none

/-- Answers the lines in order, each in the context the one before it left. -/
def answers (m : Machine) (c : Context) : List ByteArray → Option String
  | [] => some ""
  | line :: rest =>
    match answer m line c with
    | some (text, c) => (answers m c rest).map (text ++ ·)
    | none => none

/-! ## Lines -/

def newline : UInt8 := 10

def carriageReturn : UInt8 := 13

/-- A line without the one carriage return that may end it. -/
def dropReturn (line : List UInt8) : List UInt8 :=
  if line.getLast? = some carriageReturn then line.dropLast else line

/-- The lines of a text. Only a line that is ended by a newline loses a carriage return, and what
follows the last newline is a line unless it is empty. The second argument is the line so far, its
last byte first. -/
def linesFrom : List UInt8 → List UInt8 → List (List UInt8)
  | [], [] => []
  | [], line => [line.reverse]
  | b :: rest, line =>
    if b = newline then dropReturn line.reverse :: linesFrom rest []
    else linesFrom rest (b :: line)

def lines (input : ByteArray) : List ByteArray :=
  (linesFrom input.toList []).map fun line => ⟨line.toArray⟩

end Session
end Bracket
