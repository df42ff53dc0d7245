import Bracket.CommandLine

/-!
# Bracket.Main

The program: a script or a file given by its arguments, or a session on the lines of its input.
-/

namespace Bracket
namespace Program

open CommandLine

/-- Writes a report; a run that was given up counts as failed. -/
def writeReport : Option Report → IO UInt32
  | some r => do
    (← IO.getStdout).putStr r.stdout
    (← IO.getStderr).putStr r.stderr
    pure r.code
  | none => pure 1

def readContent (path : String) : IO (Option ByteArray) := do
  try
    let content ← IO.FS.readBinFile path
    pure (some content)
  catch _ => pure none

/-- The bytes up to the next newline, with it, or up to the end of the input. -/
partial def readPiece (input : IO.FS.Stream) (piece : ByteArray) : IO ByteArray := do
  let next ← input.read 1
  if next.isEmpty then pure piece
  else if next[0]? = some Session.newline then pure (piece ++ next)
  else readPiece input (piece ++ next)

partial def serve (m : Machine) (input output : IO.FS.Stream) (c : Context) : IO UInt32 := do
  let piece ← readPiece input ByteArray.empty
  match Session.lines piece with
  | [] => pure 0
  | line :: _ =>
    match Session.answer m line c with
    | some (text, c) =>
      output.putStr text
      output.flush
      serve m input output c
    | none => pure 1

def perform (s : Settings) : IO UInt32 := do
  match s.contents with
  | none => serve s.machine (← IO.getStdin) (← IO.getStdout) Context.fresh
  | some text =>
    if s.file then writeReport (fileReport s.machine text (← readContent text))
    else writeReport (scriptReport s.machine text)

def start (args : List String) : IO UInt32 := do
  match request args with
  | none => writeReport (some usageReport)
  | some .version => writeReport (some versionReport)
  | some (.run s) => perform s

end Program
end Bracket

def main (args : List String) : IO UInt32 := Bracket.Program.start args
