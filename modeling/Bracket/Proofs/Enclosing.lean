import Bracket.Proofs.Limits

/-!
# Bracket.Proofs.Enclosing

Redundant brackets: `(g)` does what `g` does, except that it needs one level more
(`redundant_brackets`).

While `g` is evaluated the brackets have one frame more in the context. The frame is empty, and no
evaluation can tell that it is there: a name is read and written below it, as no name is in it, and
so it stays empty. Brackets that are entered put frames above it, and a call takes it away with the
other local frames and puts it back.
-/

namespace Bracket

/-- Where the frame of the brackets is: under the frames of the brackets that were entered after
them, or away with all the frames of a caller. -/
inductive Gap where
  | under (above : Nat)
  | away

namespace Gap

def deeper : Gap → Gap
  | .under above => .under (above + 1)
  | .away => .away

/-- The first frames are the second ones with an empty frame in the gap. -/
inductive Fills : Gap → List Frame → List Frame → Prop where
  | here (frames : List Frame) : Fills (.under 0) ([] :: frames) frames
  | under {above : Nat} {frames frames' : List Frame} (f : Frame) :
      Fills (.under above) frames frames' → Fills (.under (above + 1)) (f :: frames) (f :: frames')
  | away (frames : List Frame) : Fills .away frames frames

namespace Fills

variable {gap : Gap} {frames frames' : List Frame}

theorem eq_of_away (h : Gap.away.Fills frames frames') : frames = frames' := by
  cases h
  rfl

/-- No name is found in an empty frame. -/
theorem findSome? (h : gap.Fills frames frames') (name : String) :
    frames.findSome? (·.get? name) = frames'.findSome? (·.get? name) := by
  induction h with
  | here frames => rfl
  | under f _ ih => simp only [List.findSome?_cons, ih]
  | away frames => rfl

/-- No write goes to an empty frame. -/
theorem write? (h : gap.Fills frames frames') (name : String) (v : Value) :
    (Scopes.write? name v frames = none ∧ Scopes.write? name v frames' = none) ∨
      ∃ written written', gap.Fills written written' ∧
        Scopes.write? name v frames = some written ∧
        Scopes.write? name v frames' = some written' := by
  induction h with
  | here frames =>
    have hpast : Scopes.write? name v ([] :: frames) =
        (Scopes.write? name v frames).map ([] :: ·) := rfl
    rw [hpast]
    cases Scopes.write? name v frames with
    | none => exact .inl ⟨rfl, rfl⟩
    | some written => exact .inr ⟨[] :: written, written, .here written, rfl, rfl⟩
  | @under above frames frames' f hfills ih =>
    simp only [Scopes.write?]
    by_cases hf : f.holds name
    · simp only [if_pos hf]
      exact .inr ⟨_, _, .under _ hfills, rfl, rfl⟩
    · simp only [if_neg hf]
      rcases ih with ⟨hnone, hnone'⟩ | ⟨written, written', hwritten, hsome, hsome'⟩
      · rw [hnone, hnone']
        exact .inl ⟨rfl, rfl⟩
      · rw [hsome, hsome']
        exact .inr ⟨f :: written, f :: written', .under f hwritten, rfl, rfl⟩
  | away frames =>
    cases Scopes.write? name v frames with
    | none => exact .inl ⟨rfl, rfl⟩
    | some written => exact .inr ⟨written, written, .away written, rfl, rfl⟩

theorem cons (h : gap.Fills frames frames') (f : Frame) :
    gap.deeper.Fills (f :: frames) (f :: frames') := by
  cases gap with
  | under above => exact .under f h
  | away => exact h.eq_of_away ▸ .away _

/-- The innermost frame of brackets that were entered later is not the one in the gap. -/
theorem tail (h : gap.deeper.Fills frames frames') : gap.Fills frames.tail frames'.tail := by
  cases gap with
  | under above =>
    cases h with
    | under f h => exact h
  | away => exact h.eq_of_away ▸ .away _

theorem append (h : gap.Fills frames frames') (below : List Frame) :
    gap.Fills (frames ++ below) (frames' ++ below) := by
  induction h with
  | here frames => exact .here _
  | under f _ ih => exact .under f ih
  | away frames => exact .away _

end Fills

end Gap

/-- The first context is the second one inside one more pair of brackets, at the given depth. -/
structure Enclosed (gap : Gap) (depth : Nat) (c d : Context) : Prop where
  locals : gap.Fills c.scopes.locals d.scopes.locals
  global : c.scopes.global = d.scopes.global
  loops : c.loops = d.loops
  depth : c.depth = depth + 1 ∧ d.depth = depth
  transcript : c.transcript = d.transcript

namespace Enclosed

variable {gap : Gap} {depth : Nat} {c d c' d' : Context}

theorem resolve (h : Enclosed gap depth c d) (name : String) :
    c.scopes.resolve name = d.scopes.resolve name := by
  unfold Scopes.resolve
  rw [h.locals.findSome? name, h.global]

theorem assign (h : Enclosed gap depth c d) (name : String) (v : Value) :
    Enclosed gap depth (c.assign name v) (d.assign name v) := by
  unfold Context.assign Scopes.assign
  rcases h.locals.write? name v with ⟨hc, hd⟩ | ⟨written, written', hfills, hc, hd⟩
  · rw [hc, hd]
    exact ⟨h.locals, congrArg (·.set name v) h.global, h.loops, h.depth, h.transcript⟩
  · rw [hc, hd]
    exact ⟨hfills, h.global, h.loops, h.depth, h.transcript⟩

theorem printLine (h : Enclosed gap depth c d) (line : String) :
    Enclosed gap depth (c.printLine line) (d.printLine line) :=
  ⟨h.locals, h.global, h.loops, h.depth, congrArg (·.printLine line) h.transcript⟩

theorem withLoops (h : Enclosed gap depth c d) (loops : List String) :
    Enclosed gap depth { c with loops := loops } { d with loops := loops } :=
  ⟨h.locals, h.global, rfl, h.depth, h.transcript⟩

theorem enter (h : Enclosed gap depth c d) (seed : Frame) :
    Enclosed gap.deeper (depth + 1) (c.enter seed) (d.enter seed) :=
  ⟨h.locals.cons seed, h.global, h.loops, h.depth.imp (congrArg (· + 1)) (congrArg (· + 1)),
    h.transcript⟩

theorem leave (h : Enclosed gap.deeper (depth + 1) c d) : Enclosed gap depth c.leave d.leave :=
  ⟨h.locals.tail, h.global, h.loops, h.depth.imp (congrArg (· - 1)) (congrArg (· - 1)),
    h.transcript⟩

theorem detach (h : Enclosed gap depth c d) : Enclosed .away depth c.detach.2 d.detach.2 :=
  ⟨.away [], h.global, h.loops, h.depth, h.transcript⟩

theorem attach (h : Enclosed gap depth c d) (hcalled : Enclosed .away depth c' d') :
    Enclosed gap depth (c'.attach c.detach.1) (d'.attach d.detach.1) := by
  -- below the frames that come back there is nothing to tell the contexts apart
  have hlocals := hcalled.locals.eq_of_away
  refine ⟨?_, hcalled.global, hcalled.loops, hcalled.depth, hcalled.transcript⟩
  show gap.Fills (c.scopes.locals ++ c'.scopes.locals) (d.scopes.locals ++ d'.scopes.locals)
  rw [hlocals]
  exact h.locals.append _

/-- What the brackets begin with. -/
theorem entered (c : Context) : Enclosed (.under 0) c.depth (c.enter []) c :=
  ⟨.here _, rfl, rfl, ⟨rfl, rfl⟩, rfl⟩

/-- When the brackets are left there is nothing more to tell the contexts apart. -/
theorem leave_eq (h : Enclosed (.under 0) depth c d) : c.leave = d := by
  obtain ⟨⟨locals, global⟩, loops, _, transcript⟩ := c
  obtain ⟨⟨locals', global'⟩, loops', _, transcript'⟩ := d
  obtain ⟨hlocals, hglobal, hloops, ⟨hdepth, hdepth'⟩, htranscript⟩ := h
  dsimp only at hlocals hglobal hloops hdepth hdepth' htranscript
  subst hglobal hloops hdepth hdepth' htranscript
  cases hlocals
  rfl

end Enclosed

def RuntimeError.isRecursionLimit : RuntimeError → Bool
  | .recursionLimit _ => true
  | _ => false

namespace Machine

/-- The ends that brackets may bring about. -/
def tooDeep : Option RuntimeError → Prop
  | some e => e.isRecursionLimit = true
  | none => True

theorem enclosed_lockstep (m : Machine) :
    Lockstep m m tooDeep (fun place : Gap × Nat => (place.1.deeper, place.2 + 1))
      (fun place => (.away, place.2)) fun place => Enclosed place.1 place.2 where
  arithmetic := rfl
  maxDepth := Nat.le_refl _
  recursion := .inl rfl
  iteration _ := .inl rfl
  rounds := Nat.le_refl _
  unfinished := trivial
  resolve name h := h.resolve name
  loops h := h.loops
  depth h := by
    have := h.depth
    omega
  deeper _ := .inr rfl
  assign name v h := h.assign name v
  printLine line h := h.printLine line
  withLoops loops h := h.withLoops loops
  enter seed h := h.enter seed
  leave h := h.leave
  detach h := h.detach
  attach h hcalled := h.attach hcalled

theorem evalTerms_group (m : Machine) (g : Group) :
    m.evalTerms [.group g] = m.bracket (m.termAt m.maxDepth) [] g :=
  bind_pure (m.bracket (m.termAt m.maxDepth) [] g)

/-- The brackets are gone when both have ended. -/
theorem evalTerms_group_agree (m : Machine) (g : Group) (c : Context) :
    Outcome.Agree Eq tooDeep (m.evalTerms [.group g] c) (m.evalTerms g c) := by
  rw [evalTerms_group, bracket]
  split
  · exact .excusedError rfl
  · have hev := termAt_together m.enclosed_lockstep m.maxDepth m.levels (Nat.le_succ _)
    have hterms := terms_together m.enclosed_lockstep hev g (.under 0, c.depth) _ _ (.entered c)
    have hsame : m.evalTerms g c = (m.evalTerms g c).afterwards id := by
      cases m.evalTerms g c <;> rfl
    rw [hsame]
    exact hterms.afterwards fun _ _ h => h.leave_eq

end Machine

/-- In every context, with any frames and running loops: what brackets around a list evaluate to,
be it a value or an error other than the recursion limit, the list without them evaluates to as
well. Everything in the context is the same afterwards: the frames, the loops, the depth and the
printed text. -/
theorem redundant_brackets (m : Machine) (g : Group) (c : Context)
    (h : (m.evalTerms [.group g] c).Avoids RuntimeError.isRecursionLimit) :
    m.evalTerms g c = m.evalTerms [.group g] c :=
  (m.evalTerms_group_agree g c).eq_of_avoids (fun _ he => he) h

/-- In a frame that binds `p` and inside the loop `l`: a write to `p`, a call of it, and a break. -/
theorem redundant_brackets_break :
    let m : Machine := { patience := 0 }
    let c : Context := (Context.fresh.enter [("p", .number 1.0)]).startLoop "l"
    let g : Group := [.ident "p", .op .assign, .closure (some "x") [.ident "x"], .op .comma,
      .call "p" (some [.ident "p"]), .op .comma, .brk "l" []]
    (m.evalTerms [.group g] c).Avoids RuntimeError.isRecursionLimit ∧
    m.evalTerms g c = m.evalTerms [.group g] c ∧
    ∃ d, m.evalTerms [.group g] c = .done .null d ∧ d.loops = [] ∧ d.depth = 1 ∧
      d.scopes = ⟨[[("p", .closure (some "x") [.ident "x"])]], []⟩ := by
  intro m c g
  have havoids : (m.evalTerms [.group g] c).Avoids RuntimeError.isRecursionLimit := trivial
  exact ⟨havoids, redundant_brackets m g c havoids, _, rfl, rfl, rfl, rfl⟩

/-- Brackets need a level. -/
example :
    let m : Machine := { maxDepth := 0, patience := 0 }
    m.evalTerms [.group []] Context.fresh = .failed (.recursionLimit 0) Context.fresh ∧
      m.evalTerms [] Context.fresh = .done .null Context.fresh :=
  ⟨rfl, rfl⟩

end Bracket
