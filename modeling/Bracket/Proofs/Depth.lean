import Bracket.Eval.Run
import Bracket.Proofs.Ensures

/-!
# Bracket.Proofs.Depth

Evaluation at a depth. Every construct comes back to the depth at which it was begun, and what is
inside its brackets is evaluated one level deeper. `AtDepth d may` says this of an evaluation, and
in which ways it may end. What a construct needs is that its groups can be entered (`Enters`): there
is room for one more level, or running out of levels is one of the ways.
-/

namespace Bracket
namespace Machine

/-- Begun at the depth the evaluation ends there, with a value or in one of the ways allowed: with
an error, or with none if it is unfinished. -/
def AtDepth {α : Type} (d : Nat) (may : Option RuntimeError → Prop) (x : Eval Context α) : Prop :=
  Eval.Keeps (fun c => c.depth = d) (fun e c => c.depth = d ∧ may (some e)) (may none) x

/-- Only the limit on the depth may be ruled out. -/
def Lenient (may : Option RuntimeError → Prop) : Prop :=
  ∀ e : RuntimeError, (∀ limit, e ≠ .recursionLimit limit) → may (some e)

/-- The group can be evaluated in brackets at the depth. -/
structure Enters (m : Machine) (ev : Term → Eval Context Value) (may : Option RuntimeError → Prop)
    (d : Nat) (g : Group) : Prop where
  room : d < m.maxDepth ∨ may (some (.recursionLimit m.maxDepth))
  content : d < m.maxDepth → ∀ t ∈ g, AtDepth (d + 1) may (ev t)

variable {m : Machine} {ev : Term → Eval Context Value} {may : Option RuntimeError → Prop}
  {d : Nat} {g : Group}

theorem terms_atDepth (hmay : Lenient may) (h : ∀ t ∈ g, AtDepth d may (ev t)) :
    AtDepth d may ((m.evaluator ev).terms g) := by
  refine Evaluator.terms_keeps g ⟨fun t ht => h t ht.1, fun _ _ _ hc => hc, ?_⟩
  intro err herr c hc
  refine ⟨hc, hmay err ?_⟩
  rintro limit rfl
  cases herr

theorem bracket_atDepth (hmay : Lenient may) (h : m.Enters ev may d g) (seed : Frame) :
    AtDepth d may (m.bracket ev seed g) := by
  intro c hc
  unfold bracket
  split
  · rename_i hdeep
    refine ⟨hc, h.room.resolve_left ?_⟩
    omega
  · rename_i hroom
    have hd : d < m.maxDepth := by omega
    have henter : (c.enter seed).depth = d + 1 := congrArg (· + 1) hc
    have hleave : ∀ c : Context, c.depth = d + 1 → c.leave.depth = d :=
      fun c hc => congrArg (· - 1) hc
    refine (terms_atDepth hmay (h.content hd) _ henter).afterwards ?_ ?_
    · exact fun _ c hc => hleave c hc
    · exact fun _ c hc => ⟨hleave c hc.1, hc.2⟩

theorem cond_atDepth (hmay : Lenient may) {test whenTrue whenFalse : Group}
    (htest : m.Enters ev may d test) (htrue : m.Enters ev may d whenTrue)
    (hfalse : m.Enters ev may d whenFalse) :
    AtDepth d may (m.cond ev test whenTrue whenFalse) := by
  refine .bind (bracket_atDepth hmay htest []) fun v => ?_
  cases v.truthy with
  | true => exact bracket_atDepth hmay htrue []
  | false => exact bracket_atDepth hmay hfalse []

/-! ## Loops and breaks -/

/-- There are rounds to reach the limit with, or the loop may be left unfinished. -/
def RoundsFor (m : Machine) (may : Option RuntimeError → Prop) (rounds : Nat) (count : UInt64) :
    Prop :=
  may none ∨ ∃ limit, m.maxIterations = some limit ∧ count ≤ limit ∧
    limit.toNat < rounds + count.toNat

/-- The counter is below the limit when it goes on, so it does not wrap around. -/
theorem RoundsFor.next {rounds : Nat} {count : UInt64}
    (h : m.RoundsFor may (rounds + 1) count) (hcount : m.exhausted? count = none) :
    m.RoundsFor may rounds (count + 1) := by
  refine h.imp_right ?_
  rintro ⟨limit, hlimit, -, hrounds⟩
  have hlt : count < limit := by
    simpa [exhausted?, hlimit] using hcount
  have hnat : (count + 1).toNat = count.toNat + 1 := by
    have := UInt64.lt_iff_toNat_lt.mp hlt
    have := limit.toNat_lt
    rw [UInt64.toNat_add, UInt64.toNat_one]
    omega
  refine ⟨limit, hlimit, ?_, by omega⟩
  have := UInt64.lt_iff_toNat_lt.mp hlt
  rw [UInt64.le_iff_toNat_le]
  omega

theorem iterate_atDepth (hmay : Lenient may) (name : String) (hbody : m.Enters ev may d g)
    (rounds : Nat) : ∀ count last, m.RoundsFor may rounds count →
      AtDepth d may (m.iterate ev name g rounds count last) := by
  induction rounds with
  | zero =>
    intro count last hrounds c hc
    refine hrounds.resolve_right ?_
    rintro ⟨limit, -, hle, hlt⟩
    have := UInt64.le_iff_toNat_le.mp hle
    omega
  | succ rounds ih =>
    intro count last hrounds c hc
    unfold iterate
    split
    · cases hcount : m.exhausted? count with
      | some limit => exact ⟨hc, hmay _ (by simp)⟩
      | none =>
        have hround := bracket_atDepth hmay hbody [] c hc
        simp only
        cases hb : m.bracket ev [] g c with
        | done v e =>
          rw [hb] at hround
          exact ih (count + 1) v (hrounds.next hcount) e hround
        | failed err e =>
          rw [hb] at hround
          exact hround
        | unfinished =>
          rw [hb] at hround
          exact hround
    · exact hc

theorem roundsFor_rounds (h : may none ∨ m.maxIterations ≠ none) : m.RoundsFor may m.rounds 0 := by
  refine h.imp_right fun hlimit => ?_
  obtain ⟨limit, hlimit⟩ := Option.ne_none_iff_exists'.mp hlimit
  refine ⟨limit, hlimit, UInt64.zero_le, ?_⟩
  simp [rounds, hlimit]

theorem loop_atDepth (hmay : Lenient may) (name : String) (hbody : m.Enters ev may d g)
    (hrounds : may none ∨ m.maxIterations ≠ none) : AtDepth d may (m.loop ev name g) := by
  intro c hc
  unfold loop
  split
  · exact ⟨hc, hmay _ (by simp)⟩
  · have hloop : AtDepth d may (m.iterate ev name g m.rounds 0 .null) :=
      iterate_atDepth hmay name hbody m.rounds 0 .null (roundsFor_rounds hrounds)
    exact (hloop (c.startLoop name) hc).onFailure fun _ _ h => h

theorem brk_atDepth (hmay : Lenient may) (name : String) (hvalue : m.Enters ev may d g) :
    AtDepth d may (m.brk ev name g) := by
  refine .bind (bracket_atDepth hmay hvalue []) fun v => .bind ?_ fun _ => .pure v
  intro c hc
  unfold endLoop
  split
  · exact hc
  · exact ⟨hc, hmay _ (by simp)⟩

/-! ## Calls -/

theorem printArg_atDepth (hmay : Lenient may) {arg : Option Group}
    (harg : ∀ g ∈ arg, m.Enters ev may d g) : AtDepth d may (m.printArg ev arg) := by
  have hprint : ∀ v : Value,
      AtDepth d may (do Eval.modify fun c => c.printLine v.text; pure Value.null) :=
    fun v => .bind (fun _ hc => hc) fun _ => .pure _
  cases arg with
  | none => exact .bind (.pure _) hprint
  | some g => exact .bind (bracket_atDepth hmay (harg g rfl) []) hprint

theorem body_atDepth (hmay : Lenient may) (hbody : m.Enters ev may d g) (frame : Frame) :
    AtDepth d may (m.body ev frame g) := by
  intro c hc
  exact (bracket_atDepth hmay hbody frame c.detach.2 hc).afterwards
    (fun _ _ h => h) (fun _ _ h => h)

/-- The closure may have any body. -/
theorem callClosure_atDepth (hmay : Lenient may) (hgroups : ∀ g, m.Enters ev may d g)
    (name : String) (arg : Option Group) : AtDepth d may (m.callClosure ev name arg) := by
  intro c hc
  unfold callClosure
  split
  · rename_i param body _
    have hseed : AtDepth d may (m.seed ev param arg) := by
      unfold seed
      split
      · exact .bind (bracket_atDepth hmay (hgroups _) []) fun v => .pure _
      · exact .pure _
    exact Eval.Keeps.bind hseed (body_atDepth hmay (hgroups body)) c hc
  · exact ⟨hc, hmay _ (by simp)⟩

end Machine
end Bracket
