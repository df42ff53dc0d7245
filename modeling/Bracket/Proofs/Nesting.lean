import Bracket.Proofs.Depth
import Bracket.Proofs.WellFormed
import Bracket.Session

/-!
# Bracket.Proofs.Nesting

The limit on brackets in a text and the limit on depth fit together: a program that calls nothing
but the built-in name reaches no depth limit that is two levels above the reader's
(`within_depth_of_parse`).

Without calls evaluation follows the tree, however often a loop goes round. The tree is at most one
level higher than its brackets are nested, for a break without a value has no bracket in the text
and evaluates an empty group (`Term.height_le_nesting`); the program is the other level.
-/

namespace Bracket
namespace Term

/-! ## Height -/

mutual

/-- How many groups are entered, one inside the other, where the evaluation of the term goes
deepest. The body of a closure waits for a call. -/
def height : Term → Nat
  | .literal _ => 0
  | .ident _ => 0
  | .op _ => 0
  | .group g => heightAll g + 1
  | .cond g x y => max (heightAll g) (max (heightAll x) (heightAll y)) + 1
  | .loop _ g => heightAll g + 1
  | .brk _ g => heightAll g + 1
  | .closure _ _ => 0
  | .call _ arg => heightArg arg

def heightAll : List Term → Nat
  | [] => 0
  | t :: ts => max (height t) (heightAll ts)

def heightArg : Option (List Term) → Nat
  | none => 0
  | some g => heightAll g + 1

end

theorem height_le_heightAll {g : Group} {t : Term} (ht : t ∈ g) : t.height ≤ heightAll g := by
  induction g with
  | nil => cases ht
  | cons u g ih =>
    rcases List.mem_cons.mp ht with rfl | ht
    · exact Nat.le_max_left _ _
    · exact Nat.le_trans (ih ht) (Nat.le_max_right _ _)

mutual

theorem height_le_nesting : ∀ t : Term, t.height ≤ t.nesting + 1
  | .literal _ => Nat.zero_le _
  | .ident _ => Nat.zero_le _
  | .op _ => Nat.zero_le _
  | .group g => Nat.succ_le_succ (heightAll_le_nestingAll g)
  | .cond g x y => by
    have hg := heightAll_le_nestingAll g
    have hx := heightAll_le_nestingAll x
    have hy := heightAll_le_nestingAll y
    simp only [height, nesting]
    omega
  | .loop _ g => Nat.succ_le_succ (heightAll_le_nestingAll g)
  | .brk _ [] => Nat.le_refl 1
  | .brk _ (t :: ts) => Nat.succ_le_succ (heightAll_le_nestingAll (t :: ts))
  | .closure _ _ => Nat.zero_le _
  | .call _ none => Nat.zero_le _
  | .call _ (some g) => Nat.succ_le_succ (heightAll_le_nestingAll g)

theorem heightAll_le_nestingAll : ∀ g : List Term, heightAll g ≤ nestingAll g + 1
  | [] => Nat.zero_le _
  | t :: ts => by
    have ht := height_le_nesting t
    have hts := heightAll_le_nestingAll ts
    simp only [heightAll, nestingAll]
    omega

end

/-! ## Calls -/

mutual

/-- No call in the term is a call of a closure. -/
def OnlyPrints : Term → Prop
  | .literal _ => True
  | .ident _ => True
  | .op _ => True
  | .group g => OnlyPrintsAll g
  | .cond g x y => OnlyPrintsAll g ∧ OnlyPrintsAll x ∧ OnlyPrintsAll y
  | .loop _ g => OnlyPrintsAll g
  | .brk _ g => OnlyPrintsAll g
  | .closure _ g => OnlyPrintsAll g
  | .call name arg => name = Machine.printName ∧ OnlyPrintsArg arg

def OnlyPrintsAll : List Term → Prop
  | [] => True
  | t :: ts => OnlyPrints t ∧ OnlyPrintsAll ts

def OnlyPrintsArg : Option (List Term) → Prop
  | none => True
  | some g => OnlyPrintsAll g

end

theorem OnlyPrintsAll.of_mem {g : Group} (h : OnlyPrintsAll g) {t : Term} (ht : t ∈ g) :
    t.OnlyPrints := by
  induction g with
  | nil => cases ht
  | cons u g ih =>
    rcases List.mem_cons.mp ht with rfl | ht
    · exact h.1
    · exact ih h.2 ht

end Term

namespace Machine

variable {m : Machine}

/-- An evaluation may end in any way but at the limit on depth. -/
def withinDepth (o : Option RuntimeError) : Prop := ∀ limit, o ≠ some (.recursionLimit limit)

theorem lenient_withinDepth : Lenient withinDepth :=
  fun _ he limit heq => he limit (Option.some.inj heq)

/-- The terms that have room at the depth, evaluated at it. -/
def Roomy (m : Machine) (ev : Term → Eval Context Value) : Prop :=
  ∀ d t, t.OnlyPrints → t.height + d ≤ m.maxDepth → AtDepth d withinDepth (ev t)

theorem enters_of_height {ev : Term → Eval Context Value} (hev : m.Roomy ev) {d : Nat} {g : Group}
    (hg : Term.OnlyPrintsAll g) (hroom : Term.heightAll g + 1 + d ≤ m.maxDepth) :
    m.Enters ev withinDepth d g := by
  refine ⟨.inl (by omega), fun _ t ht => hev (d + 1) t (hg.of_mem ht) ?_⟩
  have := Term.height_le_heightAll ht
  omega

/-- On the levels; the height of the tree says how much of the depth each of them has left. -/
theorem termAt_withinDepth (levels : Nat) : m.Roomy (m.termAt levels) := by
  induction levels with
  | zero => exact fun d t _ _ _ _ => nofun
  | succ levels ih =>
    intro d t ht hroom
    have hmay := lenient_withinDepth
    cases t with
    | literal v => exact .pure _
    | ident name => exact fun _ hc => hc
    | op o => exact .fail fun _ hc => ⟨hc, hmay _ (by simp)⟩
    | group g => exact bracket_atDepth hmay (enters_of_height ih ht hroom) []
    | cond test whenTrue whenFalse =>
      obtain ⟨htest, htrue, hfalse⟩ := ht
      simp only [Term.height] at hroom
      exact cond_atDepth hmay (enters_of_height ih htest (by omega))
        (enters_of_height ih htrue (by omega)) (enters_of_height ih hfalse (by omega))
    | loop name body => exact loop_atDepth hmay name (enters_of_height ih ht hroom) (.inl nofun)
    | brk name value => exact brk_atDepth hmay name (enters_of_height ih ht hroom)
    | closure param body => exact .pure _
    | call name arg =>
      obtain ⟨rfl, harg⟩ := ht
      refine printArg_atDepth hmay ?_
      rintro g rfl
      exact enters_of_height ih harg hroom

theorem evalProgram_withinDepth {g : Group} (hcalls : Term.OnlyPrintsAll g)
    (hroom : Term.heightAll g + 1 ≤ m.maxDepth) :
    AtDepth 0 withinDepth (m.evalProgram g) := by
  intro c hc
  have henters := enters_of_height (d := 0) (termAt_withinDepth m.levels) hcalls hroom
  exact (bracket_atDepth lenient_withinDepth henters [] c hc).onFailure fun _ _ h => h

end Machine

/-- In a context at rest the depth is zero. The patience of the machine is arbitrary, so loops may
go round any number of times. -/
theorem within_depth_of_parse {source : String} {g : Group} (hparse : Reader.parse source = .ok g)
    (hcalls : Term.OnlyPrintsAll g) {m : Machine} (hdepth : Reader.maxNesting + 2 ≤ m.maxDepth)
    {c : Context} (hc : c.depth = 0) :
    ∀ limit d, m.run source c ≠ .failed (.runtime (.recursionLimit limit)) d := by
  have hnesting := (Reader.wellFormed_of_parse hparse).nesting
  have hheight := Term.heightAll_le_nestingAll g
  have heval := Machine.evalProgram_withinDepth (m := m) hcalls (by omega) c hc
  intro limit d hrun
  rw [Machine.run, hparse] at hrun
  simp only at hrun
  cases ho : m.evalProgram g c with
  | done v e =>
    rw [ho] at hrun
    cases hrun
  | failed e c' =>
    rw [ho] at hrun heval
    cases hrun
    exact heval.2 limit rfl
  | unfinished =>
    rw [ho] at hrun
    cases hrun

/-- A loop that prints and then breaks without a value. -/
theorem within_depth_of_parse_loop :
    let m : Machine := { maxDepth := 1026, patience := 2 }
    let source := "loop l(@print()break l)"
    let g : Group := [.loop "l" [.call "print" none, .brk "l" []]]
    Reader.parse source = .ok g ∧ Term.OnlyPrintsAll g ∧ Reader.maxNesting + 2 ≤ m.maxDepth ∧
    Context.fresh.depth = 0 ∧
    ∀ limit d, m.run source Context.fresh ≠ .failed (.runtime (.recursionLimit limit)) d := by
  intro m source g
  have hparse : Reader.parse "loop l(@print()break l)" = .ok g := by
    rw [Reader.parse, Reader.Parser.run_eq_bind rfl]
    refine (Reader.Parser.run_eq_bind rfl).trans ?_
    refine (Reader.Parser.run_eq_bind rfl).trans ?_
    refine (Reader.Parser.run_eq_bind rfl).trans ?_
    exact (Reader.Parser.run_eq_bind rfl).trans (Reader.Parser.run_of_isAtEnd rfl)
  have hcalls : Term.OnlyPrintsAll g := ⟨⟨⟨rfl, trivial⟩, trivial, trivial⟩, trivial⟩
  have hdepth : Reader.maxNesting + 2 ≤ m.maxDepth := by decide
  exact ⟨hparse, hcalls, hdepth, rfl, within_depth_of_parse hparse hcalls hdepth rfl⟩

end Bracket
