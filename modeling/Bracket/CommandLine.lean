import Bracket.Session
import Bracket.Text.Blank

/-!
# Bracket.CommandLine

What the arguments of the program ask for, and what the program answers.

Arguments are taken from left to right. The first one that is wrong decides, and so does the first
that asks for the version; what follows it is not looked at.
-/

namespace Bracket
namespace CommandLine

/-! ## Arguments -/

inductive Argument where
  | separator
  | positional (text : String)
  | long (name : String) (value : Option String)
  | short (letters : List Char)

/-- A single dash is no option. -/
def looksLikeOption (arg : List Char) : Bool :=
  match arg with
  | '-' :: _ :: _ => true
  | _ => false

/-- A long option, with the text behind its first equals sign if it has one. -/
def longOption (text : List Char) : Argument :=
  let name := String.ofList (text.takeWhile (· != '='))
  match text.dropWhile (· != '=') with
  | [] => .long name none
  | _ :: value => .long name (some (String.ofList value))

def Argument.ofString (arg : String) : Argument :=
  match arg.toList with
  | ['-', '-'] => .separator
  | '-' :: '-' :: text => longOption text
  | '-' :: letter :: letters => .short (letter :: letters)
  | _ => .positional arg

/-- A natural number below `2 ^ 64`, which may have a plus sign. -/
def readLimit? (text : List Char) : Option UInt64 :=
  let digits := match text with
    | '+' :: rest => rest
    | rest => rest
  if !digits.isEmpty && digits.all Char.isDigit then
    let n := Number.naturalOfDigits digits
    if n < UInt64.size then some (UInt64.ofNat n) else none
  else none

/-- The options given so far. None of them may be given twice. -/
structure Settings where
  file : Bool := false
  maxDepth : Option UInt64 := none
  maxIterations : Option UInt64 := none
  contents : Option String := none

namespace Settings

def setFile? (s : Settings) : Option Settings :=
  if s.file then none else some { s with file := true }

def setContents? (s : Settings) (text : String) : Option Settings :=
  if s.contents.isSome then none else some { s with contents := some text }

def setLimit? (s : Settings) (name value : String) : Option Settings :=
  if name = "max-depth" && s.maxDepth.isNone then
    (readLimit? value.toList).map fun n => { s with maxDepth := some n }
  else if name = "max-iterations" && s.maxIterations.isNone then
    (readLimit? value.toList).map fun n => { s with maxIterations := some n }
  else none

end Settings

def takesValue (name : String) : Bool := name == "max-depth" || name == "max-iterations"

/-! ## Requests -/

inductive Request where
  | version
  | run (settings : Settings)

/-- The letters of one argument, taken one by one; whether the version is asked for decides. -/
def shortOptions (s : Settings) : List Char → Option Request
  | [] => some (.run s)
  | 'f' :: rest =>
    match s.setFile? with
    | some s => shortOptions s rest
    | none => none
  | 'V' :: _ => some .version
  | _ :: _ => none

/-- After the separator everything is positional. -/
def positionals (s : Settings) : List String → Option Request
  | [] => some (.run s)
  | text :: rest =>
    match s.setContents? text with
    | some s => positionals s rest
    | none => none

def requestFrom (s : Settings) : List String → Option Request
  | [] => some (.run s)
  | arg :: rest =>
    match Argument.ofString arg with
    | .separator => positionals s rest
    | .positional text =>
      match s.setContents? text with
      | some s => requestFrom s rest
      | none => none
    | .short letters =>
      match shortOptions s letters with
      | some (.run s) => requestFrom s rest
      | other => other
    | .long name (some value) =>
      match s.setLimit? name value with
      | some s => requestFrom s rest
      | none => none
    | .long name none =>
      if name = "version" then some .version
      else if name = "file" then
        match s.setFile? with
        | some s => requestFrom s rest
        | none => none
      else if takesValue name then
        match rest with
        | [] => none
        | value :: rest =>
          if looksLikeOption value.toList then none
          else
            match s.setLimit? name value with
            | some s => requestFrom s rest
            | none => none
      else none

def request (args : List String) : Option Request := requestFrom {} args

/-- More rounds than any run lives to see. -/
def patience : Nat := Number.twoTo 62

def Settings.machine (s : Settings) : Machine :=
  let m : Machine := { maxIterations := s.maxIterations, patience := patience }
  match s.maxDepth with
  | some n => { m with maxDepth := n.toNat }
  | none => m

/-! ## Reports -/

structure Report where
  code : UInt32
  stdout : String
  stderr : String

def versionReport : Report := ⟨0, "brak 0.1.0\n", ""⟩

def usageReport : Report :=
  ⟨2, "", "usage: brak [-f] [--max-depth N] [--max-iterations N] [--] [CONTENTS]\n"⟩

/-- Runs one script. What it printed before an error is kept. -/
def scriptReport (m : Machine) (source : String) : Option Report :=
  match m.result (Text.trim source) with
  | .done v c => some ⟨0, c.drain.1 ++ v.text ++ "\n", ""⟩
  | .failed e c => some ⟨1, c.drain.1, e.message ++ "\n"⟩
  | .unfinished => none

def unreadableReport (path : String) : Report :=
  ⟨1, "", "Failed to read the input file '" ++ path ++ "'. Perhaps this file does not exist?\n"⟩

/-- Runs a file, given its content if it could be read. -/
def fileReport (m : Machine) (path : String) (content : Option ByteArray) : Option Report :=
  match content.bind String.fromUTF8? with
  | some source => scriptReport m source
  | none => some (unreadableReport path)

def sessionReport (m : Machine) (input : ByteArray) : Option Report :=
  (Session.answers m Context.fresh (Session.lines input)).map fun text => ⟨0, text, ""⟩

end CommandLine
end Bracket
