import Bracket.Proofs.Changes

/-!
# Bracket.Proofs.Effects

Where the global frame and the running loops change. A value that an assignment has waited for is
the only thing that is written, a value that a break has waited for the only thing that ends loops,
and an error ends loops where it passes what has to be tidied up. Every other step leaves the global
frame as it is and the loops running (`step_effect`).
-/

namespace Bracket

/-- The global frame is the same, and the loops of the first context still run in the second. -/
structure Context.Calm (c d : Context) : Prop where
  global : d.scopes.global = c.scopes.global
  loops : c.loops <:+ d.loops

theorem Context.Calm.refl (c : Context) : c.Calm c := ⟨rfl, List.suffix_refl _⟩

inductive Effect : Config → Config → Prop
  | calm {s s' : Config} (h : s.context.Calm s'.context) : Effect s s'
  | assign {v : Value} {name : String} {p : Place} {k : List Waiting} {c : Context} :
      Effect ⟨.value v, .target name p :: k, c⟩
        ⟨.sweep (p.reduced v.toLiteral), k, c.assign name v⟩
  | cut {v : Value} {name : String} {k : List Waiting} {c : Context} {outer : List String}
      (h : Context.around? name c.loops = some outer) :
      Effect ⟨.value v, .cut name :: k, c⟩ ⟨.value v, k, { c with loops := outer }⟩
  | unwind {e : RuntimeError} {w : Waiting} {k : List Waiting} {c : Context} :
      Effect ⟨.error e, w :: k, c⟩ ⟨.error e, k, Machine.unwind c w⟩

namespace Machine

variable {m : Machine} (k : List Waiting) (c : Context)

theorem Still.calm {k : List Waiting} {c : Context} {s : Config} (h : Still k c s) :
    c.Calm s.context := by
  rw [h.2]
  exact .refl c

theorem closureStep_calm (param : Option String) (body : Group) (arg : Option Group) :
    c.Calm (closureStep param body arg k c).context := by
  unfold closureStep
  split <;> exact ⟨rfl, List.suffix_refl _⟩

theorem callStep_calm (name : String) (arg : Option Group) :
    c.Calm (callStep name arg k c).context := by
  unfold callStep
  split
  · cases arg <;> exact .refl c
  · split
    · exact closureStep_calm ..
    · exact .refl c

theorem termStep_calm (t : Term) : c.Calm (termStep k c t).context := by
  cases t with
  | loop name body =>
    simp only [termStep]
    split
    · exact .refl c
    · exact ⟨rfl, List.suffix_cons name c.loops⟩
  | call name arg => exact callStep_calm ..
  | _ => exact .refl c

theorem bracketStep_calm (seed : Frame) (g : Group) :
    c.Calm (m.bracketStep seed g k c).context := by
  unfold bracketStep
  split <;> exact ⟨rfl, List.suffix_refl _⟩

theorem againStep_calm (v : Value) (name : String) (body : Group) (count : UInt64) (around : Nat) :
    c.Calm (m.againStep v name body count around k c).context := by
  unfold againStep
  split
  · split <;> exact .refl c
  · exact .refl c

theorem numberStep_calm {v : Value} {op : Op} {next : Float → Config}
    (hnext : ∀ x, c.Calm (next x).context) : c.Calm (numberStep v op k c next).context := by
  unfold numberStep
  split
  · exact .refl c
  · exact hnext _

theorem resume_effect (v : Value) (w : Waiting) :
    Effect ⟨.value v, w :: k, c⟩ (m.resume v k c w) := by
  cases w with
  | target name p => exact .assign
  | cut name =>
    simp only [resume]
    split
    · exact .cut ‹_›
    · exact .calm (.refl c)
  | left op right p =>
    refine .calm ?_
    show c.Calm (numberStep v op k c _).context
    exact numberStep_calm k c fun _ => .refl c
  | right op x p =>
    refine .calm ?_
    show c.Calm (numberStep v op k c _).context
    refine numberStep_calm k c fun y => ?_
    unfold resultStep
    split <;> exact .refl c
  | again name body count around => exact .calm (againStep_calm ..)
  | _ => exact .calm ⟨rfl, List.suffix_refl _⟩

theorem step_effect {s s' : Config} (h : m.step s = some s') : Effect s s' := by
  obtain ⟨task, k, c⟩ := s
  cases task with
  | value v =>
    cases k with
    | nil => cases h
    | cons w k => cases h; exact resume_effect k c v w
  | error e =>
    cases k with
    | nil => cases h
    | cons w k => cases h; exact .unwind
  | term t => cases h; exact .calm (termStep_calm k c t)
  | bracket seed g => cases h; exact .calm (bracketStep_calm k c seed g)
  | chunks done others => cases others <;> cases h <;> exact .calm (.refl c)
  | sweep p => cases h; exact .calm (sweepStep_still p k c).calm
  | rest last operands => cases operands <;> cases h <;> exact .calm (.refl c)

end Machine

end Bracket
