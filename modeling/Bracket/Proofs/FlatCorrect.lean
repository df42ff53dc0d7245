import Bracket.Proofs.Agree
import Bracket.Proofs.Flat

/-!
# Bracket.Proofs.FlatCorrect

The stack of frames is an implementation of two places to look a name up in.

`runAll_flat`: for every sequence of texts, run from fresh states, both evaluators give the same
values and errors, print the same, and leave the same global names, running loops and depth.

The invariant is `Matches`: every frame that a bracket has pushed is empty and stays so, and below
them lies at most the frame of the innermost call, which holds its parameter and nothing else.
-/

namespace Bracket

/-- The empty frames of `k` brackets above the frame of the parameter, if there is one. -/
def flatLocals (k : Nat) (param : Option (String × Value)) : List Frame :=
  List.replicate k [] ++ param.toList.map fun b => [b]

/-- Everything but the local names is the same. -/
structure Alike (c : Context) (f : Flat) : Prop where
  global : c.scopes.global = f.global
  loops : c.loops = f.loops
  depth : c.depth = f.depth
  transcript : c.transcript = f.transcript

/-- Inside `k` brackets of a call whose parameter has this name, the frames hold what the flat
state says. -/
structure Matches (k : Nat) (name : Option String) (c : Context) (f : Flat) : Prop
    extends Alike c f where
  locals : c.scopes.locals = flatLocals k f.param
  name : f.param.map Prod.fst = name

theorem Frame.get?_single (param : String) (v : Value) (name : String) :
    Frame.get? [(param, v)] name = if param = name then some v else none := by
  by_cases h : param = name
  · subst h
    simp [Frame.get?]
  · have hne : (name == param) = false := beq_false_of_ne (Ne.symm h)
    simp [Frame.get?, List.lookup_cons, hne, h]

theorem Frame.holds_single (param : String) (v : Value) (name : String) :
    Frame.holds [(param, v)] name = (decide (param = name) && !v.isNull) := by
  rw [Frame.holds, Frame.get?_single]
  by_cases h : param = name <;> simp [h]

/-- Empty frames are not seen by a read. -/
theorem findSome?_flatLocals (k : Nat) (param : Option (String × Value)) (name : String) :
    (flatLocals k param).findSome? (Frame.get? · name) =
      (flatLocals 0 param).findSome? (Frame.get? · name) := by
  induction k with
  | zero => rfl
  | succ k ih => exact ih

/-- Empty frames are not seen by a write, and stay empty. -/
theorem write?_flatLocals (k : Nat) (param : Option (String × Value)) (name : String) (v : Value) :
    Scopes.write? name v (flatLocals k param) =
      (Scopes.write? name v (flatLocals 0 param)).map (List.replicate k [] ++ ·) := by
  induction k with
  | zero => exact (Option.map_id' (x := Scopes.write? name v (flatLocals 0 param))).symm
  | succ k ih =>
    show (Scopes.write? name v (flatLocals k param)).map ([] :: ·) = _
    rw [ih, Option.map_map]
    rfl

namespace Matches

variable {k : Nat} {name : Option String} {c : Context} {f : Flat}

theorem resolve (h : Matches k name c f) (x : String) : c.scopes.resolve x = f.resolve x := by
  unfold Scopes.resolve Flat.resolve
  rw [h.locals, findSome?_flatLocals, h.global]
  cases f.param with
  | none => rfl
  | some b =>
    obtain ⟨param, v⟩ := b
    simp only [flatLocals, List.replicate_zero, List.nil_append, Option.toList_some, List.map_cons,
      List.map_nil, List.findSome?_cons, List.findSome?_nil, Frame.get?_single]
    by_cases hx : param = x
    · simp only [if_pos hx]
    · simp only [if_neg hx, Flat.globalValue]

theorem assignGlobal (h : Matches k name c f) (x : String) (v : Value) :
    Matches k name { c with scopes := ⟨c.scopes.locals, c.scopes.global.set x v⟩ }
      (f.assignGlobal x v) :=
  ⟨⟨by rw [h.global]; rfl, h.loops, h.depth, h.transcript⟩, h.locals, h.name⟩

theorem assign (h : Matches k name c f) (x : String) (v : Value) :
    Matches k name (c.assign x v) (f.assign x v) := by
  have hglobal := h.assignGlobal x v
  obtain ⟨param, global, loops, depth, transcript⟩ := f
  unfold Context.assign Scopes.assign
  rw [h.locals, write?_flatLocals]
  rw [h.locals] at hglobal
  cases param with
  | none => exact hglobal
  | some b =>
    obtain ⟨param, old⟩ := b
    by_cases hx : param = x ∧ old.isNull = false
    · have hwrite : Scopes.write? x v (flatLocals 0 (some (param, old))) =
          some (flatLocals 0 (some (param, v))) := by
        simp [flatLocals, Scopes.write?, Frame.holds_single, Frame.set, hx]
      rw [hwrite]
      simp only [Flat.assign, if_pos hx, Option.map_some]
      exact ⟨⟨h.global, h.loops, h.depth, h.transcript⟩, rfl, h.name⟩
    · have hwrite : Scopes.write? x v (flatLocals 0 (some (param, old))) = none := by
        simpa [flatLocals, Scopes.write?, Frame.holds_single] using hx
      rw [hwrite]
      simp only [Flat.assign, if_neg hx, Option.map_none]
      exact hglobal

/-- A bracket adds an empty frame. -/
theorem enter (h : Matches k name c f) :
    Matches (k + 1) name (c.enter []) { f with depth := f.depth + 1 } :=
  ⟨⟨h.global, h.loops, congrArg (· + 1) h.depth, h.transcript⟩, congrArg ([] :: ·) h.locals, h.name⟩

theorem leave (h : Matches (k + 1) name c f) :
    Matches k name c.leave { f with depth := f.depth - 1 } :=
  ⟨⟨h.global, h.loops, congrArg (· - 1) h.depth, h.transcript⟩, congrArg List.tail h.locals, h.name⟩

/-- A call begins with the frame of its parameter, or with an empty one. -/
theorem call (h : Matches k name c f) (param : Option (String × Value)) :
    Matches (1 - param.toList.length) (param.map Prod.fst) (c.detach.2.enter param.toList)
      { f with param := param, depth := f.depth + 1 } := by
  refine ⟨⟨h.global, h.loops, congrArg (· + 1) h.depth, h.transcript⟩, ?_, rfl⟩
  cases param <;> rfl

/-- The frame of a call is the only one. -/
theorem call_locals {param : Option (String × Value)}
    (h : Matches (1 - param.toList.length) (param.map Prod.fst) c f) :
    c.leave.scopes.locals = [] := by
  have hlocals : c.leave.scopes.locals = (flatLocals _ f.param).tail := congrArg List.tail h.locals
  have hname := h.name
  rw [hlocals]
  cases param with
  | none =>
    rw [Option.map_none, Option.map_eq_none_iff] at hname
    rw [hname]
    rfl
  | some b =>
    obtain ⟨b', hparam, -⟩ := Option.map_eq_some_iff.mp hname
    rw [hparam]
    rfl

/-- Putting the frames of the caller back gives its names again. -/
theorem attach (h : Matches k name c f) {d : Context} {e : Flat} (hd : Alike d e)
    (hlocals : d.scopes.locals = []) :
    Matches k name (d.attach c.scopes.locals) { e with param := f.param } := by
  refine ⟨⟨hd.global, hd.loops, hd.depth, hd.transcript⟩, ?_, h.name⟩
  show c.scopes.locals ++ d.scopes.locals = _
  rw [hlocals, List.append_nil, h.locals]

theorem withLoops (h : Matches k name c f) (loops : List String) :
    Matches k name { c with loops := loops } { f with loops := loops } :=
  ⟨⟨h.global, rfl, h.depth, h.transcript⟩, h.locals, h.name⟩

theorem printLine (h : Matches k name c f) (line : String) :
    Matches k name (c.printLine line) { f with transcript := f.transcript.printLine line } :=
  ⟨⟨h.global, h.loops, h.depth, congrArg (·.printLine line) h.transcript⟩, h.locals, h.name⟩

end Matches

/-! ## Evaluation -/

/-- Nothing is excused: the two evaluations end alike. -/
def nothing : Option RuntimeError → Prop := fun _ => False

/-- Inside any brackets of any call the two evaluations of a value go alike. -/
def FlatAgree (x : Eval Context Value) (y : Eval Flat Value) : Prop :=
  ∀ k name, Eval.Agree (Matches k name) nothing x y

section

variable {m : Machine} {ev : Term → Eval Context Value} {ev' : Term → Eval Flat Value}

theorem terms_flat (hev : ∀ t, FlatAgree (ev t) (ev' t)) (g : Group) :
    FlatAgree ((m.evaluator ev).terms g) ((Flat.evaluator m ev').terms g) := by
  intro k name
  have hagree : Evaluator.Agree (Matches k name) nothing (m.evaluator ev) (Flat.evaluator m ev') :=
    ⟨fun t => hev t k name, fun x v _ _ h => h.assign x v, rfl⟩
  exact Evaluator.terms_agree hagree g

theorem bracket_flat (hev : ∀ t, FlatAgree (ev t) (ev' t)) (g : Group) :
    FlatAgree (m.bracket ev [] g) (Flat.bracket m ev' g) := by
  intro k name c f h
  unfold Machine.bracket Flat.bracket
  rw [h.depth]
  split
  · exact .failed h
  · exact (terms_flat hev g _ _ _ _ h.enter).afterwards fun _ _ h => h.leave

theorem cond_flat (hev : ∀ t, FlatAgree (ev t) (ev' t)) (test whenTrue whenFalse : Group) :
    FlatAgree (m.cond ev test whenTrue whenFalse) (Flat.cond m ev' test whenTrue whenFalse) :=
  fun k name => .bind (bracket_flat hev test k name) fun _ => bracket_flat hev _ k name

theorem iterate_flat (hev : ∀ t, FlatAgree (ev t) (ev' t)) {k : Nat} {p : Option String}
    (name : String) (body : Group) (rounds : Nat) :
    ∀ count last c f, Matches k p c f →
      Outcome.Agree (Matches k p) nothing (m.iterate ev name body rounds count last c)
        (Flat.iterate m ev' name body rounds count last f) := by
  induction rounds with
  | zero => intro count last c f _; exact .unfinished
  | succ rounds ih =>
    intro count last c f h
    unfold Machine.iterate Flat.iterate
    rw [h.loops]
    split
    · cases m.exhausted? count with
      | some limit => exact .failed h
      | none =>
        have hbody := bracket_flat (m := m) hev body k p c f h
        simp only
        generalize m.bracket ev [] body c = o at hbody ⊢
        generalize Flat.bracket m ev' body f = o' at hbody ⊢
        cases hbody with
        | done hd => exact ih _ _ _ _ hd
        | failed hd => exact .failed hd
        | unfinished => exact .unfinished
        | excusedError he => exact he.elim
        | excusedUnfinished hn => exact hn.elim
    · exact .done h

theorem loop_flat (hev : ∀ t, FlatAgree (ev t) (ev' t)) (name : String) (body : Group) :
    FlatAgree (m.loop ev name body) (Flat.loop m ev' name body) := by
  intro k p c f h
  unfold Machine.loop Flat.loop Context.startLoop
  rw [h.loops]
  split
  · exact .failed h
  · refine (iterate_flat hev name body _ _ _ _ _ (h.withLoops _)).onFailure fun d e hd => ?_
    unfold Context.keepLoops
    rw [hd.loops]
    exact hd.withLoops _

theorem brk_flat (hev : ∀ t, FlatAgree (ev t) (ev' t)) (name : String) (value : Group) :
    FlatAgree (m.brk ev name value) (Flat.brk m ev' name value) := by
  refine fun k p => .bind (bracket_flat hev value k p) fun v => ?_
  refine .bind (fun c f h => ?_) fun _ => .pure v
  unfold Machine.endLoop Flat.endLoop
  rw [h.loops]
  cases Context.around? name f.loops with
  | some outer => exact .done (h.withLoops outer)
  | none => exact .failed h

theorem printArg_flat (hev : ∀ t, FlatAgree (ev t) (ev' t)) (arg : Option Group) :
    FlatAgree (m.printArg ev arg) (Flat.printArg m ev' arg) := by
  intro k p
  have hprint : ∀ v : Value, Eval.Agree (Matches k p) nothing
      (do Eval.modify fun c => c.printLine v.text; pure .null : Eval Context Value)
      (do Eval.modify fun f => { f with transcript := f.transcript.printLine v.text }; pure .null) :=
    fun v => .bind (.modify fun _ _ h => h.printLine v.text) fun _ => .pure _
  cases arg with
  | none => exact .bind (.pure _) hprint
  | some g => exact .bind (bracket_flat hev g k p) hprint

theorem body_flat (hev : ∀ t, FlatAgree (ev t) (ev' t)) (param : Option (String × Value))
    (g : Group) : FlatAgree (m.body ev param.toList g) (Flat.body m ev' param g) := by
  intro k p c f h
  -- between the two brackets of a call there is no local frame at all
  refine Outcome.Agree.afterwards (R := fun d e => Alike d e ∧ d.scopes.locals = []) ?_
    fun d e hd => h.attach hd.1 hd.2
  unfold Machine.bracket Flat.bracket
  rw [show c.detach.2.depth = f.depth from h.depth]
  split
  · exact .failed ⟨⟨h.global, h.loops, h.depth, h.transcript⟩, rfl⟩
  · refine (terms_flat hev g _ _ _ _ (h.call param)).afterwards fun d e hd => ?_
    exact ⟨⟨hd.global, hd.loops, congrArg (· - 1) hd.depth, hd.transcript⟩, hd.call_locals⟩

theorem callClosure_flat (hev : ∀ t, FlatAgree (ev t) (ev' t)) (name : String)
    (arg : Option Group) :
    FlatAgree (m.callClosure ev name arg) (Flat.callClosure m ev' name arg) := by
  intro k p c f h
  unfold Machine.callClosure Flat.callClosure
  rw [h.resolve]
  cases f.resolve name with
  | closure param g =>
    simp only
    cases param with
    | none => exact body_flat hev none g k p c f h
    | some x =>
      cases arg with
      | none => exact body_flat hev none g k p c f h
      | some a =>
        simp only [Machine.seed, Flat.argument, bind_assoc, pure_bind]
        exact Eval.Agree.bind (bracket_flat hev a k p)
          (fun v => body_flat hev (some (x, v)) g k p) c f h
  | null => exact .failed h
  | number x => exact .failed h

theorem termWith_flat (hev : ∀ t, FlatAgree (ev t) (ev' t)) (t : Term) :
    FlatAgree (m.termWith ev t) (Flat.termWith m ev' t) := by
  cases t with
  | literal v => exact fun k p => .pure _
  | ident name =>
    intro k p c f h
    show Outcome.Agree _ _ (.done (c.scopes.resolve name) c) (.done (f.resolve name) f)
    rw [h.resolve]
    exact .done h
  | op o => exact fun k p => .fail _
  | group g => exact bracket_flat hev g
  | cond test whenTrue whenFalse => exact cond_flat hev test whenTrue whenFalse
  | loop name body => exact loop_flat hev name body
  | brk name value => exact brk_flat hev name value
  | closure param body => exact fun k p => .pure _
  | call name arg =>
    show FlatAgree (m.call ev name arg) (Flat.call m ev' name arg)
    unfold Machine.call Flat.call
    split
    · exact printArg_flat hev arg
    · exact callClosure_flat hev name arg

end

theorem termAt_flat (m : Machine) (levels : Nat) (t : Term) :
    FlatAgree (m.termAt levels t) (Flat.termAt m levels t) := by
  induction levels generalizing t with
  | zero => exact fun k p c f _ => .unfinished
  | succ levels ih => exact termWith_flat ih t

theorem evalProgram_flat (m : Machine) (g : Group) :
    FlatAgree (m.evalProgram g) (Flat.evalProgram m g) := fun k p c f h =>
  (bracket_flat (termAt_flat m m.levels) g k p c f h).onFailure fun _ _ hd => hd.withLoops []

/-! ## Sequences of runs -/

theorem run_flat (m : Machine) (source : String) {c : Context} {f : Flat}
    (h : Matches 0 none c f) :
    Outcome.Agree (Matches 0 none) (fun _ => False) (m.run source c) (Flat.run m source f) := by
  unfold Machine.run Flat.run
  cases Reader.parse source with
  | error e => exact .failed h
  | ok g =>
    have hprogram := evalProgram_flat m g 0 none c f h
    simp only
    generalize m.evalProgram g c = o at hprogram ⊢
    generalize Flat.evalProgram m g f = o' at hprogram ⊢
    cases hprogram with
    | done hd => exact .done hd
    | failed hd => exact .failed hd
    | unfinished => exact .unfinished
    | excusedError he => exact he.elim
    | excusedUnfinished hn => exact hn.elim

theorem Alike.view {c : Context} {f : Flat} (h : Alike c f) : c.view = f.view := by
  simp only [Context.view, Flat.view, h.global, h.loops, h.depth, h.transcript]

/-- Run on any texts one after another, the evaluator with frames and the one without give the same
values and errors and are seen to leave the same state each time. -/
theorem runAll_flat (m : Machine) (sources : List String) :
    (runAll m.run Context.fresh sources).map (Outcome.mapState Context.view) =
      (runAll (Flat.run m) Flat.fresh sources).map (Outcome.mapState Flat.view) := by
  suffices hall : ∀ c f, Matches 0 none c f →
      (runAll m.run c sources).map (Outcome.mapState Context.view) =
        (runAll (Flat.run m) f sources).map (Outcome.mapState Flat.view) from
    hall _ _ ⟨⟨rfl, rfl, rfl, rfl⟩, rfl, rfl⟩
  induction sources with
  | nil => intro c f _; rfl
  | cons source sources ih =>
    intro c f h
    have hrun := run_flat m source h
    unfold runAll
    generalize m.run source c = o at hrun ⊢
    generalize Flat.run m source f = o' at hrun ⊢
    cases hrun with
    | done hd => simp only [List.map_cons, Outcome.mapState, hd.view, ih _ _ hd]
    | failed hd => simp only [List.map_cons, Outcome.mapState, hd.view, ih _ _ hd]
    | unfinished => rfl
    | excusedError he => exact he.elim
    | excusedUnfinished hn => exact hn.elim

end Bracket
