import Bracket.Proofs.Steps

/-!
# Bracket.Proofs.Changes

What one step can do to the context. Most of what waits for a value only computes with it; the
rest, the guards, has something to undo. `step_change` lists every effect a step can have on the
guards and on the context, so that a property kept by each `Change` holds at every moment of an
evaluation (`steps_invariant`).
-/

namespace Bracket

/-- What is left to undo. -/
inductive Guard where
  | leave (seed : Frame)
  | loop (name : String) (around : Nat)
  | attach (frames : List Frame)
  | program

def Waiting.guard? : Waiting → Option Guard
  | .leave seed => some (.leave seed)
  | .again name _ _ around => some (.loop name around)
  | .attach frames => some (.attach frames)
  | .program => some .program
  | _ => none

/-- The guards of a configuration, innermost first. -/
def Config.guards (s : Config) : List Guard := s.waiting.filterMap Waiting.guard?

/-- The effect of a step on the guards and on the context. -/
inductive Change (m : Machine) : List Guard → Context → List Guard → Context → Prop where
  | still {g : List Guard} {c : Context} : Change m g c g c
  | assign {g : List Guard} {c : Context} (name : String) (v : Value) :
      Change m g c g (c.assign name v)
  | printLine {g : List Guard} {c : Context} (line : String) : Change m g c g (c.printLine line)
  | cut {g : List Guard} {c : Context} {name : String} {outer : List String}
      (h : Context.around? name c.loops = some outer) : Change m g c g { c with loops := outer }
  | enter {g : List Guard} {c : Context} (seed : Frame) (h : c.depth < m.maxDepth) :
      Change m g c (.leave seed :: g) (c.enter seed)
  | leave {g : List Guard} {c : Context} {seed : Frame} : Change m (.leave seed :: g) c g c.leave
  | detach {g : List Guard} {c : Context} : Change m g c (.attach c.detach.1 :: g) c.detach.2
  | attach {g : List Guard} {c : Context} {frames : List Frame} :
      Change m (.attach frames :: g) c g (c.attach frames)
  | startLoop {g : List Guard} {c : Context} {name : String} (h : name ∉ c.loops) :
      Change m g c (.loop name c.loops.length :: g) (c.startLoop name)
  | endLoop {g : List Guard} {c : Context} {name : String} {around : Nat}
      (h : c.loops.head? ≠ some name) : Change m (.loop name around :: g) c g c
  | abandonLoop {g : List Guard} {c : Context} {name : String} {around : Nat} :
      Change m (.loop name around :: g) c g (c.keepLoops around)
  | succeed {g : List Guard} {c : Context} : Change m (.program :: g) c g c
  | fail {g : List Guard} {c : Context} : Change m (.program :: g) c g { c with loops := [] }

namespace Machine

variable {m : Machine}

/-- The configuration is entered by a change from a list of waiting things and a context. -/
def Entered (m : Machine) (k : List Waiting) (c : Context) (s : Config) : Prop :=
  Change m (k.filterMap Waiting.guard?) c s.guards s.context

/-- The guards that wait and the context are still these. -/
def Still (k : List Waiting) (c : Context) (s : Config) : Prop :=
  s.guards = k.filterMap Waiting.guard? ∧ s.context = c

theorem Still.entered {k : List Waiting} {c : Context} {s : Config} (h : Still k c s) :
    m.Entered k c s := by
  obtain ⟨hguards, hcontext⟩ := h
  rw [Entered, hguards, hcontext]
  exact .still

theorem reduceStep_still (op : Op) (left right : Operand) (p : Place) (k : List Waiting)
    (c : Context) : Still k c (reduceStep op left right p k c) := by
  unfold reduceStep
  split
  · split <;> exact ⟨rfl, rfl⟩
  · exact ⟨rfl, rfl⟩

theorem sweepStep_still (p : Place) (k : List Waiting) (c : Context) :
    Still k c (sweepStep p k c) := by
  unfold sweepStep
  split
  · split <;> exact ⟨rfl, rfl⟩
  · split
    · exact ⟨rfl, rfl⟩
    · split
      · exact ⟨rfl, rfl⟩
      · split
        · exact ⟨rfl, rfl⟩
        · split
          · exact ⟨rfl, rfl⟩
          · split
            · exact ⟨rfl, rfl⟩
            · exact reduceStep_still ..

theorem closureStep_entered (param : Option String) (body : Group) (arg : Option Group)
    (k : List Waiting) (c : Context) : m.Entered k c (closureStep param body arg k c) := by
  unfold closureStep
  split
  · exact .still
  · exact .detach

theorem callStep_entered (name : String) (arg : Option Group) (k : List Waiting) (c : Context) :
    m.Entered k c (callStep name arg k c) := by
  unfold callStep
  split
  · cases arg <;> exact .still
  · split
    · exact closureStep_entered ..
    · exact .still

theorem termStep_entered (k : List Waiting) (c : Context) (t : Term) :
    m.Entered k c (termStep k c t) := by
  cases t with
  | loop name body =>
    simp only [termStep]
    split
    · exact .still
    · exact .startLoop ‹_›
  | call name arg => exact callStep_entered ..
  | _ => exact .still

theorem bracketStep_entered (seed : Frame) (g : Group) (k : List Waiting) (c : Context) :
    m.Entered k c (m.bracketStep seed g k c) := by
  unfold bracketStep
  split
  · exact .still
  · exact .enter seed (by omega)

theorem againStep_entered (v : Value) (name : String) (body : Group) (count : UInt64)
    (around : Nat) (k : List Waiting) (c : Context) :
    m.Entered (.again name body count around :: k) c
      (m.againStep v name body count around k c) := by
  unfold againStep
  split
  · split <;> exact .still
  · exact .endLoop ‹_›

theorem numberStep_entered {v : Value} {op : Op} {k : List Waiting} {c : Context}
    {next : Float → Config} (hnext : ∀ x, m.Entered k c (next x)) :
    m.Entered k c (numberStep v op k c next) := by
  unfold numberStep
  split
  · exact .still
  · exact hnext _

theorem resume_entered (v : Value) (k : List Waiting) (c : Context) (w : Waiting) :
    m.Entered (w :: k) c (m.resume v k c w) := by
  cases w with
  | left op right p =>
    show m.Entered k c (numberStep v op k c _)
    exact numberStep_entered fun _ => .still
  | right op x p =>
    show m.Entered k c (numberStep v op k c _)
    refine numberStep_entered fun y => ?_
    unfold resultStep
    split <;> exact .still
  | target name p => exact .assign name v
  | operand rest => exact .still
  | leave seed => exact .leave
  | branch whenTrue whenFalse => exact .still
  | again name body count around => exact againStep_entered ..
  | cut name =>
    simp only [resume]
    split
    · exact .cut ‹_›
    · exact .still
  | print => exact .printLine v.text
  | argument param body => exact .detach
  | attach frames => exact .attach
  | program => exact .succeed

theorem unwind_entered (e : RuntimeError) (k : List Waiting) (c : Context) (w : Waiting) :
    m.Entered (w :: k) c ⟨.error e, k, unwind c w⟩ := by
  cases w with
  | leave seed => exact .leave
  | again name body count around => exact .abandonLoop
  | attach frames => exact .attach
  | program => exact .fail
  | _ => exact .still

/-- Everything a step can do. -/
theorem step_change {s s' : Config} (h : m.step s = some s') :
    Change m s.guards s.context s'.guards s'.context := by
  obtain ⟨task, k, c⟩ := s
  cases task with
  | value v =>
    cases k with
    | nil => cases h
    | cons w k => cases h; exact resume_entered v k c w
  | error e =>
    cases k with
    | nil => cases h
    | cons w k => cases h; exact unwind_entered e k c w
  | term t => cases h; exact termStep_entered k c t
  | bracket seed g => cases h; exact bracketStep_entered seed g k c
  | chunks done others => cases others <;> cases h <;> exact .still
  | sweep p => cases h; exact (sweepStep_still p k c).entered
  | rest last operands =>
    cases operands with
    | nil => cases h; exact .still
    | cons x operands => cases h; exact .still

/-- A property of guards and context that every change keeps holds at every moment. -/
theorem steps_invariant {P : List Guard → Context → Prop}
    (hchange : ∀ {g c g' c'}, Change m g c g' c' → P g c → P g' c') {s s' : Config}
    (h : Steps m s s') (hs : P s.guards s.context) : P s'.guards s'.context := by
  induction h with
  | refl => exact hs
  | cons h _ ih => exact ih (hchange (step_change h) hs)

end Machine

end Bracket
