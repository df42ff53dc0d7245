import Bracket.Eval.Value

/-!
# Bracket.Eval.Scopes

The frames in which names are looked up: the global frame, which is always there, and the local
frames above it.

Reading and writing search the frames by different rules. A read takes the innermost binding, also
one that holds null. A write goes to the innermost binding that does not hold null, and to the
global frame if there is none.
-/

namespace Bracket

/-- The names bound at one level, each at most once. -/
abbrev Frame := List (String × Value)

namespace Frame

def get? (f : Frame) (name : String) : Option Value := f.lookup name

/-- Binds a name, in its old place if it was bound. -/
def set (f : Frame) (name : String) (v : Value) : Frame :=
  match f with
  | [] => [(name, v)]
  | (n, w) :: rest => if n = name then (n, v) :: rest else (n, w) :: set rest name v

/-- The name is bound to something other than null. -/
def holds (f : Frame) (name : String) : Bool :=
  match f.get? name with
  | some v => !v.isNull
  | none => false

end Frame

structure Scopes where
  /-- The frames above the global one, innermost first. -/
  locals : List Frame
  global : Frame

namespace Scopes

def empty : Scopes := ⟨[], []⟩

/-- The number of frames, the global one included. -/
def depth (s : Scopes) : Nat := s.locals.length + 1

def push (s : Scopes) (f : Frame) : Scopes := ⟨f :: s.locals, s.global⟩

/-- Removes the innermost frame; the global frame stays. -/
def pop (s : Scopes) : Scopes := ⟨s.locals.tail, s.global⟩

/-- The innermost binding of a name, null if it has none. -/
def resolve (s : Scopes) (name : String) : Value :=
  match s.locals.findSome? (·.get? name) with
  | some v => v
  | none => (s.global.get? name).getD .null

/-- The frames after a write to the innermost one that holds the name, if there is one. -/
def write? (name : String) (v : Value) : List Frame → Option (List Frame)
  | [] => none
  | f :: rest =>
    if f.holds name then some (f.set name v :: rest)
    else (write? name v rest).map (f :: ·)

def assign (s : Scopes) (name : String) (v : Value) : Scopes :=
  match write? name v s.locals with
  | some locals => ⟨locals, s.global⟩
  | none => ⟨s.locals, s.global.set name v⟩

/-- Takes the local frames away, so that only the global frame is seen. -/
def detach (s : Scopes) : List Frame × Scopes := (s.locals, ⟨[], s.global⟩)

/-- Puts frames back on top. -/
def attach (s : Scopes) (frames : List Frame) : Scopes := ⟨frames ++ s.locals, s.global⟩

end Scopes

end Bracket
