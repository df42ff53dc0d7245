import Bracket.Proofs.Changes
import Bracket.Proofs.StepsCorrect

/-!
# Bracket.Proofs.Frames

The frames and the depth. An evaluation ends with the frames it began with, each in its place, and
with the same depth, whether it succeeds or fails (`frames_and_depth`).

Two things move frames: a bracket pushes one and pops it, and a call takes all local frames away
and puts them back. `Owned` is the invariant that covers both: the local frames are, one for one,
those of the brackets that are waiting to leave, down to the innermost call, and the frames that
call has taken away are those of the brackets outside it.
-/

namespace Bracket

def Frame.names (f : Frame) : List String := f.map Prod.fst

theorem Frame.names_set_of_mem {f : Frame} {name : String} {v : Value} (h : name ∈ f.names) :
    (f.set name v).names = f.names := by
  induction f with
  | nil => cases h
  | cons b f ih =>
    obtain ⟨n, w⟩ := b
    unfold Frame.set
    split
    · rfl
    · rename_i hn
      have hmem : name ∈ Frame.names f := by
        rcases List.mem_cons.mp h with heq | hmem
        · exact absurd heq.symm hn
        · exact hmem
      show n :: Frame.names _ = n :: Frame.names f
      rw [ih hmem]

/-- A write to a frame that does not bind the name adds it behind the others. -/
theorem Frame.names_prefix_set (f : Frame) (name : String) (v : Value) :
    f.names <+: (f.set name v).names := by
  induction f with
  | nil => exact List.nil_prefix
  | cons b f ih =>
    obtain ⟨n, w⟩ := b
    unfold Frame.set
    split
    · exact List.prefix_refl _
    · exact List.cons_prefix_cons.mpr ⟨rfl, ih⟩

theorem Frame.mem_names_of_get? {f : Frame} {name : String} {v : Value}
    (h : f.get? name = some v) : name ∈ f.names := by
  induction f with
  | nil => cases h
  | cons b f ih =>
    obtain ⟨n, w⟩ := b
    by_cases hn : name = n
    · exact List.mem_cons.mpr (.inl hn)
    · refine List.mem_cons.mpr (.inr (ih ?_))
      have hne : (name == n) = false := beq_false_of_ne hn
      simpa only [Frame.get?, List.lookup_cons, hne] using h

theorem Frame.mem_names_of_holds {f : Frame} {name : String} (h : f.holds name = true) :
    name ∈ f.names := by
  unfold Frame.holds at h
  split at h
  · exact Frame.mem_names_of_get? ‹_›
  · cases h

namespace Scopes

theorem names_write? {name : String} {v : Value} {locals locals' : List Frame}
    (h : write? name v locals = some locals') :
    locals'.map Frame.names = locals.map Frame.names := by
  induction locals generalizing locals' with
  | nil => cases h
  | cons f locals ih =>
    unfold write? at h
    split at h
    · rename_i hf
      cases h
      simp only [List.map_cons, Frame.names_set_of_mem (Frame.mem_names_of_holds hf)]
    · obtain ⟨rest, hrest, rfl⟩ := Option.map_eq_some_iff.mp h
      simp only [List.map_cons, ih hrest]

/-- Writing leaves every local frame in its place with its names. -/
theorem names_locals_assign (s : Scopes) (name : String) (v : Value) :
    (s.assign name v).locals.map Frame.names = s.locals.map Frame.names := by
  unfold assign
  split
  · exact names_write? ‹_›
  · rfl

theorem names_global_assign (s : Scopes) (name : String) (v : Value) :
    s.global.names <+: (s.assign name v).global.names := by
  unfold assign
  split
  · exact List.prefix_refl _
  · exact Frame.names_prefix_set _ _ _

end Scopes

/-! ## Frames and guards -/

/-- The frames that the guards have pushed and that are seen now, above those of the beginning. -/
def pushed (first : List Frame) : List Guard → List Frame
  | [] => first
  | .leave seed :: g => seed :: pushed first g
  | .attach _ :: _ => []
  | _ :: g => pushed first g

/-- The number of frames that calls have taken away. -/
def detached : List Guard → Nat
  | [] => 0
  | .attach frames :: g => frames.length + detached g
  | _ :: g => detached g

/-- The local frames belong to the guards, and the depth counts them together with those that were
taken away. -/
def Owned (first : Context) : List Guard → List Frame → Nat → Prop
  | [], locals, depth =>
    locals.map Frame.names = first.scopes.locals.map Frame.names ∧ depth = first.depth
  | .leave seed :: g, locals, depth =>
    ∃ f fs n, locals = f :: fs ∧ depth = n + 1 ∧ f.names = seed.names ∧ Owned first g fs n
  | .attach frames :: g, locals, depth => locals = [] ∧ Owned first g frames depth
  | _ :: g, locals, depth => Owned first g locals depth

namespace Owned

variable {first : Context} {g : List Guard} {locals locals' : List Frame} {depth : Nat}

/-- Frames are known by their names. -/
theorem congr (hn : locals'.map Frame.names = locals.map Frame.names)
    (h : Owned first g locals depth) : Owned first g locals' depth := by
  induction g generalizing locals locals' depth with
  | nil => exact ⟨hn.trans h.1, h.2⟩
  | cons w g ih =>
    cases w with
    | leave seed =>
      obtain ⟨f, fs, n, rfl, hdepth, hf, hfs⟩ := h
      obtain ⟨f', fs', rfl, hf', hfs'⟩ := List.map_eq_cons_iff.mp hn
      exact ⟨f', fs', n, rfl, hdepth, hf'.trans hf, ih hfs' hfs⟩
    | attach frames =>
      obtain ⟨rfl, hframes⟩ := h
      exact ⟨List.map_eq_nil_iff.mp hn, hframes⟩
    | loop name around => exact ih hn h
    | program => exact ih hn h

theorem names (h : Owned first g locals depth) :
    locals.map Frame.names = (pushed first.scopes.locals g).map Frame.names := by
  induction g generalizing locals depth with
  | nil => exact h.1
  | cons w g ih =>
    cases w with
    | leave seed =>
      obtain ⟨f, fs, n, rfl, -, hf, hfs⟩ := h
      simp only [pushed, List.map_cons, hf, ih hfs]
    | attach frames => rw [h.1]; rfl
    | loop name around => exact ih h
    | program => exact ih h

theorem depth_eq (hfirst : first.depth = first.scopes.locals.length)
    (h : Owned first g locals depth) : depth = locals.length + detached g := by
  induction g generalizing locals depth with
  | nil =>
    have hlen := congrArg List.length h.1
    simp only [List.length_map] at hlen
    rw [h.2, hfirst, hlen]
    rfl
  | cons w g ih =>
    cases w with
    | leave seed =>
      obtain ⟨f, fs, n, rfl, rfl, -, hfs⟩ := h
      have := ih hfs
      simp only [List.length_cons, detached]
      omega
    | attach frames =>
      obtain ⟨rfl, hframes⟩ := h
      have := ih hframes
      simp only [List.length_nil, detached]
      omega
    | loop name around => exact ih h
    | program => exact ih h

end Owned

/-- Every frame belongs to its guard, and the global frame is never replaced: it keeps its names. -/
def FramesKept (first : Context) (g : List Guard) (c : Context) : Prop :=
  Owned first g c.scopes.locals c.depth ∧ first.scopes.global.names <+: c.scopes.global.names

theorem Change.framesKept {m : Machine} {first : Context} {g g' : List Guard} {c c' : Context}
    (h : Change m g c g' c') (hc : FramesKept first g c) : FramesKept first g' c' := by
  obtain ⟨howned, hglobal⟩ := hc
  cases h with
  | assign name v =>
    exact ⟨howned.congr (c.scopes.names_locals_assign name v),
      hglobal.trans (c.scopes.names_global_assign name v)⟩
  | enter seed => exact ⟨⟨seed, c.scopes.locals, c.depth, rfl, rfl, rfl, howned⟩, hglobal⟩
  | leave =>
    obtain ⟨f, fs, n, hlocals, hdepth, -, hfs⟩ := howned
    refine ⟨?_, hglobal⟩
    simp only [Context.leave, Scopes.pop, hlocals, hdepth, List.tail_cons, Nat.add_sub_cancel]
    exact hfs
  | detach => exact ⟨⟨rfl, howned⟩, hglobal⟩
  | attach =>
    obtain ⟨hlocals, hframes⟩ := howned
    refine ⟨?_, hglobal⟩
    simp only [Context.attach, Scopes.attach, hlocals, List.append_nil]
    exact hframes
  | _ => exact ⟨howned, hglobal⟩

theorem start_framesKept (entry : Entry) (c : Context) :
    FramesKept c (entry.start c).guards (entry.start c).context := by
  cases entry <;> exact ⟨⟨rfl, rfl⟩, List.prefix_refl _⟩

theorem steps_framesKept {m : Machine} {entry : Entry} {c : Context} {s : Config}
    (hs : Steps m (entry.start c) s) : FramesKept c s.guards s.context :=
  Machine.steps_invariant (fun hchange => hchange.framesKept) hs (start_framesKept entry c)

/-- The same frames in the same places, known by their names, and the same depth. -/
structure SameFrames (c d : Context) : Prop where
  locals : d.scopes.locals.map Frame.names = c.scopes.locals.map Frame.names
  global : c.scopes.global.names <+: d.scopes.global.names
  frames : d.scopes.depth = c.scopes.depth
  depth : d.depth = c.depth

/-- How the frames and the depth stand at a moment of an evaluation that began in `first`. -/
structure Balanced (first : Context) (s : Config) : Prop where
  count : s.context.depth + 1 = s.context.scopes.depth + detached s.guards
  owners : s.context.scopes.locals.map Frame.names =
    (pushed first.scopes.locals s.guards).map Frame.names
  global : first.scopes.global.names <+: s.context.scopes.global.names
  /-- The frame that is about to be popped is the one that was pushed. -/
  leave : ∀ seed g, s.guards = .leave seed :: g → 0 < s.context.depth ∧
    ∃ f fs, s.context.scopes.locals = f :: fs ∧ f.names = seed.names ∧
      fs.map Frame.names = (pushed first.scopes.locals g).map Frame.names
  /-- The frames that are about to come back are those that were there. -/
  attach : ∀ frames g, s.guards = .attach frames :: g → s.context.scopes.locals = [] ∧
    frames.map Frame.names = (pushed first.scopes.locals g).map Frame.names

theorem steps_balanced {m : Machine} {entry : Entry} {c : Context} {s : Config}
    (hc : c.depth = c.scopes.locals.length) (hs : Steps m (entry.start c) s) : Balanced c s := by
  obtain ⟨howned, hglobal⟩ := steps_framesKept hs
  constructor
  · have hdepth := howned.depth_eq hc
    rw [Scopes.depth]
    omega
  · exact howned.names
  · exact hglobal
  · intro seed g hg
    rw [hg] at howned
    obtain ⟨f, fs, n, hlocals, hdepth, hf, hfs⟩ := howned
    exact ⟨by omega, f, fs, hlocals, hf, hfs.names⟩
  · intro frames g hg
    rw [hg] at howned
    exact ⟨howned.1, howned.2.names⟩

theorem steps_sameFrames {m : Machine} {entry : Entry} {c : Context} {s : Config}
    (hs : Steps m (entry.start c) s) (hlast : m.step s = none) : SameFrames c s.context := by
  obtain ⟨howned, hglobal⟩ := steps_framesKept hs
  rw [Config.guards, Machine.waiting_of_step_none hlast] at howned
  have hlen := congrArg List.length howned.1
  simp only [List.length_map] at hlen
  exact ⟨howned.1, hglobal, by rw [Scopes.depth, Scopes.depth, hlen], howned.2⟩

theorem eval_sameFrames {m : Machine} {entry : Entry} {c d : Context}
    (hd : (m.eval entry c).state? = some d) : SameFrames c d := by
  obtain ⟨s, hs, hlast, rfl⟩ := Machine.eval_last hd
  exact steps_sameFrames hs hlast

theorem run_sameFrames {m : Machine} {source : String} {c d : Context}
    (hd : (m.run source c).state? = some d) : SameFrames c d := by
  rcases Machine.run_state hd with rfl | ⟨g, hg⟩
  · exact ⟨rfl, List.prefix_refl _, rfl, rfl⟩
  · exact eval_sameFrames hg

theorem SameFrames.open_scopes {n : Nat} {c d : Context} (h : SameFrames c d)
    (hc : c.depth = n ∧ c.scopes.depth = n + 1) : d.depth = n ∧ d.scopes.depth = n + 1 :=
  ⟨h.depth.trans hc.1, h.frames.trans hc.2⟩

/-- The open scopes of a session are the depth, and each has its frame above the global one. -/
theorem Reached.open_scopes {m : Machine} {n : Nat} {c : Context} (h : Reached m n c) :
    c.depth = n ∧ c.scopes.depth = n + 1 := by
  induction h with
  | fresh => exact ⟨rfl, rfl⟩
  | opened seed _ ih => exact ⟨congrArg (· + 1) ih.1, congrArg (· + 1) ih.2⟩
  | @closed n c _ ih =>
    obtain ⟨hdepth, hframes⟩ := ih
    simp only [Scopes.depth] at hframes
    constructor
    · show c.depth - 1 = n
      omega
    · show c.scopes.locals.tail.length + 1 = n + 1
      rw [List.length_tail]
      omega
  | evaluated _ hd ih => exact (eval_sameFrames hd).open_scopes ih
  | ran _ hd ih => exact (run_sameFrames hd).open_scopes ih

/-- Whatever is evaluated in a context that a session has reached: at every moment the depth counts
the frames, those of calls in progress included, and every frame belongs to the bracket that pushed
it; the last moment, if there is one, has the frames and the depth of the first. A finished
evaluation ends with its last moment. -/
theorem frames_and_depth {m : Machine} {n : Nat} {c : Context} (h : Reached m n c) :
    (c.depth = n ∧ c.scopes.depth = n + 1) ∧
    (∀ (entry : Entry) (s : Config), Steps m (entry.start c) s →
      Balanced c s ∧ (m.step s = none → SameFrames c s.context)) ∧
    (∀ (entry : Entry) (d : Context), (m.eval entry c).state? = some d →
      (∃ s, Steps m (entry.start c) s ∧ m.step s = none ∧ s.context = d) ∧ SameFrames c d) ∧
    ∀ (source : String) (d : Context), (m.run source c).state? = some d → SameFrames c d := by
  have hopen := h.open_scopes
  have hc : c.depth = c.scopes.locals.length := by
    have := hopen.2
    rw [Scopes.depth] at this
    omega
  refine ⟨hopen, fun entry s hs => ⟨?_, ?_⟩, fun entry d hd => ⟨?_, ?_⟩, ?_⟩
  · exact steps_balanced hc hs
  · exact steps_sameFrames hs
  · exact Machine.eval_last hd
  · exact eval_sameFrames hd
  · exact fun source d hd => run_sameFrames hd

/-- A call that fails inside a call, below a scope with one name. -/
theorem frames_after_failed_call :
    let m : Machine := { patience := 3 }
    let c : Context := Context.fresh.enter [("p", .null)]
    let entry : Entry := .program [.ident "f", .op .assign, .closure (some "x") [.call "g" none],
      .op .comma, .call "f" (some [.ident "p"])]
    Reached m 1 c ∧
    ∃ d, (m.eval entry c).state? = some d ∧ SameFrames c d ∧ d.depth = 1 ∧ d.scopes.depth = 2 ∧
      ∃ s, Steps m (entry.start c) s ∧ m.step s = none ∧ s.context = d ∧ Balanced c s := by
  intro m c entry
  have hc : Reached m 1 c := .opened _ .fresh
  obtain ⟨-, hsteps, heval, -⟩ := frames_and_depth hc
  have hd : ∃ d, (m.eval entry c).state? = some d := ⟨_, rfl⟩
  obtain ⟨d, hd⟩ := hd
  obtain ⟨⟨s, hs, hlast, rfl⟩, hsame⟩ := heval entry d hd
  obtain ⟨hdepth, hframes⟩ := (frames_and_depth (.evaluated hc hd)).1
  exact ⟨hc, _, hd, hsame, hdepth, hframes, s, hs, hlast, rfl, (hsteps entry s hs).1⟩

end Bracket
