import Bracket.Proofs.Code
import Bracket.Proofs.StepsCorrect

/-!
# Bracket.Proofs.CodeCorrect

An evaluation that begins in some code stays in it (`steps_within`).

At every moment the next task, what waits for it and the values in the frames, those that calls have
taken away included, are of the code (`Within`). So a closure that is called is one of the code's,
and a write has its name from a target and its value from the code: whatever happens to the frames
of the beginning is such writes.
-/

namespace Bracket

/-- The list of terms that is evaluated. -/
def Entry.code : Entry → Group
  | .term t => [t]
  | .terms g | .group _ g | .program g => g
  | .cond test whenTrue whenFalse => [.cond test whenTrue whenFalse]
  | .loop name body => [.loop name body]
  | .brk name value => [.brk name value]
  | .call name arg => [.call name arg]

/-- The frame that is pushed first. -/
def Entry.seed : Entry → Frame
  | .group seed _ => seed
  | _ => []

/-- Not one of the two that move frames. -/
def Waiting.Frameless : Waiting → Prop
  | .leave _ | .attach _ => False
  | _ => True

theorem written_cons {may : String → Value → Prop} {first locals : List Frame} {w : Waiting}
    {k : List Waiting} (hw : w.Frameless) :
    Written may first ((w :: k).filterMap Waiting.guard?) locals ↔
      Written may first (k.filterMap Waiting.guard?) locals := by
  cases w with
  | leave seed => exact hw.elim
  | attach frames => exact hw.elim
  | _ => exact Iff.rfl

namespace Code

variable (K : Code)

/-- The chunk that is swept, what came of those before it, and those behind it. -/
structure At (p : Place) : Prop where
  row : K.Row (p.before.reverse ++ p.passed)
  done : ∀ x ∈ p.done, K.Takes x
  others : ∀ chunk ∈ p.others, K.Row chunk

def Does : Task → Prop
  | .value v => K.Made v
  | .error _ => True
  | .term t => K.Runs t
  | .bracket seed g => seed.All K.Made ∧ K.lists g
  | .chunks done others => (∀ x ∈ done, K.Takes x) ∧ ∀ chunk ∈ others, K.Row chunk
  | .sweep p => K.At p
  | .rest last operands => K.Made last ∧ ∀ x ∈ operands, K.Takes x

/-- Places are those that a reduction leads to, whatever it gives. -/
def Waits : Waiting → Prop
  | .left _ right p => K.Takes right ∧ ∀ v, K.At (p.reduced v)
  | .right _ _ p => ∀ v, K.At (p.reduced v)
  | .target name p => K.Target name ∧ ∀ v, K.At (p.reduced v)
  | .operand rest => ∀ x ∈ rest, K.Takes x
  | .branch whenTrue whenFalse => K.lists whenTrue ∧ K.lists whenFalse
  | .again _ body _ _ => K.lists body
  | .argument _ body => K.lists body
  | .attach frames => ∀ f ∈ frames, f.All K.Made
  | .leave _ | .cut _ | .print | .program => True

/-- What waits and what the frames hold is of the code, and the frames of the beginning have been
written to as the code allows. -/
structure Keeps (first : Scopes) (k : List Waiting) (c : Context) : Prop where
  waits : ∀ w ∈ k, K.Waits w
  made : c.scopes.All K.Made
  locals : Written K.May first.locals (k.filterMap Waiting.guard?) c.scopes.locals
  global : Frame.GlobalWrites K.May first.global c.scopes.global

structure Within (first : Scopes) (s : Config) : Prop where
  does : K.Does s.task
  keeps : K.Keeps first s.waiting s.context

variable {K : Code} {first : Scopes} {k : List Waiting} {w : Waiting} {c d : Context}

namespace Keeps

theorem head (h : K.Keeps first (w :: k) c) : K.Waits w := h.waits w List.mem_cons_self

theorem push (h : K.Keeps first k c) (hw : K.Waits w) (hframe : w.Frameless) :
    K.Keeps first (w :: k) c :=
  ⟨List.forall_mem_cons.mpr ⟨hw, h.waits⟩, h.made, (written_cons hframe).mpr h.locals, h.global⟩

theorem pop (h : K.Keeps first (w :: k) c) (hframe : w.Frameless) : K.Keeps first k c :=
  ⟨(List.forall_mem_cons.mp h.waits).2, h.made, (written_cons hframe).mp h.locals, h.global⟩

/-- The rest of the context does not matter. -/
theorem congr (h : K.Keeps first k c) (hd : d.scopes = c.scopes) : K.Keeps first k d := by
  obtain ⟨waits, made, locals, global⟩ := h
  exact ⟨waits, hd ▸ made, hd ▸ locals, hd ▸ global⟩

theorem assign (h : K.Keeps first k c) {name : String} {v : Value} (hmay : K.May name v) :
    K.Keeps first k (c.assign name v) where
  waits := h.waits
  made := h.made.assign (fun _ _ => And.right) hmay
  locals := h.locals.write (c.scopes.localWrites_assign hmay)
  global := h.global.trans (c.scopes.globalWrites_assign hmay)

theorem enter (h : K.Keeps first k c) {seed : Frame} (hseed : seed.All K.Made) :
    K.Keeps first (.leave seed :: k) (c.enter seed) where
  waits := List.forall_mem_cons.mpr ⟨trivial, h.waits⟩
  made := ⟨List.forall_mem_cons.mpr ⟨hseed, h.made.locals⟩, h.made.global⟩
  locals := h.locals
  global := h.global

theorem leave {seed : Frame} (h : K.Keeps first (.leave seed :: k) c) :
    K.Keeps first k c.leave where
  waits := (List.forall_mem_cons.mp h.waits).2
  made := ⟨fun f hf => h.made.locals f (List.mem_of_mem_tail hf), h.made.global⟩
  locals := h.locals
  global := h.global

theorem detach (h : K.Keeps first k c) :
    K.Keeps first (.attach c.detach.1 :: k) c.detach.2 where
  waits := List.forall_mem_cons.mpr ⟨h.made.locals, h.waits⟩
  made := ⟨fun _ hf => absurd hf List.not_mem_nil, h.made.global⟩
  locals := ⟨rfl, h.locals⟩
  global := h.global

/-- No frames are seen when those of the caller come back. -/
theorem attach {frames : List Frame} (h : K.Keeps first (.attach frames :: k) c) :
    K.Keeps first k (c.attach frames) := by
  obtain ⟨hnil, hlocals⟩ : c.scopes.locals = [] ∧
    Written K.May first.locals (k.filterMap Waiting.guard?) frames := h.locals
  have hframes : (c.attach frames).scopes.locals = frames := by
    simp only [Context.attach, Scopes.attach, hnil, List.append_nil]
  refine ⟨(List.forall_mem_cons.mp h.waits).2, ⟨?_, h.made.global⟩, ?_, h.global⟩
  · rw [hframes]
    exact h.head
  · rw [hframes]
    exact hlocals

end Keeps

/-! ## Lists of terms -/

theorem does_task {x : Operand} (hx : K.Takes x) : K.Does x.task := by
  cases x with
  | source t => exact hx
  | reduced v => exact made_ofLiteral v

theorem reduceStep_within {op : Op} {left right : Operand} {p : Place} (hleft : K.Takes left)
    (hright : K.Takes right) (hp : ∀ v, K.At (p.reduced v))
    (htarget : ∀ name, left = .source (.ident name) → op = .assign → K.Target name)
    (hk : K.Keeps first k c) : K.Within first (Machine.reduceStep op left right p k c) := by
  unfold Machine.reduceStep
  split
  · split
    · exact ⟨does_task hright, hk.push ⟨htarget _ rfl ‹_›, hp⟩ trivial⟩
    · exact ⟨trivial, hk⟩
  · exact ⟨does_task hleft, hk.push ⟨hright, hp⟩ trivial⟩

theorem sweepStep_within {p : Place} (hp : K.At p) (hk : K.Keeps first k c) :
    K.Within first (Machine.sweepStep p k c) := by
  obtain ⟨tier, looser, before, passed, done, others⟩ := p
  obtain ⟨row, hdone, hothers⟩ := hp
  unfold Machine.sweepStep
  cases before with
  | nil =>
    cases looser with
    | nil => exact ⟨⟨List.forall_mem_append.mpr ⟨hdone, row.takes⟩, hothers⟩, hk⟩
    | cons tier looser =>
      refine ⟨⟨?_, hdone, hothers⟩, hk⟩
      simpa only [List.reverse_reverse, List.reverse_nil, List.append_nil, List.nil_append]
        using row
  | cons x before =>
    have hrow : K.Row (before.reverse ++ x :: passed) := by
      simpa only [List.reverse_cons, List.append_assoc, List.singleton_append] using row
    simp only
    split
    · exact ⟨⟨hrow, hdone, hothers⟩, hk⟩
    · rename_i op hop
      split
      · exact ⟨trivial, hk⟩
      · rename_i left before
        split
        · exact ⟨trivial, hk⟩
        · split
          · exact ⟨trivial, hk⟩
          · rename_i right passed
            split
            · exact ⟨trivial, hk⟩
            · have hthree : K.Row (before.reverse ++ left :: x :: right :: passed) := by
                simpa only [List.reverse_cons, List.append_assoc, List.singleton_append] using hrow
              obtain ⟨-, htakes⟩ := List.forall_mem_append.mp hthree.takes
              refine reduceStep_within (htakes left List.mem_cons_self)
                (htakes right (List.mem_cons_of_mem _ (List.mem_cons_of_mem _ List.mem_cons_self)))
                (fun v => ⟨hthree.reduce v, hdone, hothers⟩) ?_ hk
              rintro name rfl rfl
              exact hthree.target (op?_of_tier hop)

/-! ## Terms -/

theorem bodyStep_within {seed : Frame} {body : Group} (hseed : seed.All K.Made)
    (hbody : K.lists body) (hk : K.Keeps first k c) :
    K.Within first (Machine.bodyStep seed body k c) :=
  ⟨⟨hseed, hbody⟩, hk.detach⟩

theorem closureStep_within {param : Option String} {body : Group} {arg : Option Group}
    (hbody : K.lists body) (harg : ∀ g ∈ arg, K.lists g) (hk : K.Keeps first k c) :
    K.Within first (Machine.closureStep param body arg k c) := by
  unfold Machine.closureStep
  split
  · exact ⟨⟨Frame.all_nil, harg _ rfl⟩, hk.push hbody trivial⟩
  · exact bodyStep_within Frame.all_nil hbody hk

theorem callStep_within {name : String} {arg : Option Group} (harg : ∀ g ∈ arg, K.lists g)
    (hk : K.Keeps first k c) : K.Within first (Machine.callStep name arg k c) := by
  unfold Machine.callStep
  split
  · cases arg with
    | none => exact ⟨trivial, hk.push trivial trivial⟩
    | some g => exact ⟨⟨Frame.all_nil, harg g rfl⟩, hk.push trivial trivial⟩
  · have hmade := hk.made.resolve trivial name
    split
    · rename_i param body hclosure
      rw [hclosure] at hmade
      exact closureStep_within (K.body hmade) harg hk
    · exact ⟨trivial, hk⟩

theorem termStep_within {t : Term} (ht : K.Runs t) (hk : K.Keeps first k c) :
    K.Within first (Machine.termStep k c t) := by
  cases t with
  | literal v => exact ⟨made_ofLiteral v, hk⟩
  | ident name => exact ⟨hk.made.resolve trivial name, hk⟩
  | op o => exact ⟨trivial, hk⟩
  | group g => exact ⟨⟨Frame.all_nil, ht.part List.mem_cons_self⟩, hk⟩
  | cond test whenTrue whenFalse =>
    have hbranches : K.Waits (.branch whenTrue whenFalse) :=
      ⟨ht.part (.tail _ List.mem_cons_self), ht.part (.tail _ (.tail _ List.mem_cons_self))⟩
    exact ⟨⟨Frame.all_nil, ht.part List.mem_cons_self⟩, hk.push hbranches trivial⟩
  | loop name body =>
    simp only [Machine.termStep]
    split
    · exact ⟨trivial, hk⟩
    · have hbody : K.Waits (.again name body 0 c.loops.length) := ht.part List.mem_cons_self
      have hloop : K.Keeps first k (c.startLoop name) := hk.congr rfl
      exact ⟨trivial, hloop.push hbody trivial⟩
  | brk name value => exact ⟨⟨Frame.all_nil, ht.part List.mem_cons_self⟩, hk.push trivial trivial⟩
  | closure param body =>
    obtain ⟨g, hg, hmem⟩ := ht
    exact ⟨K.written hg hmem, hk⟩
  | call name arg =>
    refine callStep_within (fun g hg => ?_) hk
    cases hg
    exact ht.part List.mem_cons_self

theorem bracketStep_within {m : Machine} {seed : Frame} {g : Group} (hseed : seed.All K.Made)
    (hg : K.lists g) (hk : K.Keeps first k c) : K.Within first (m.bracketStep seed g k c) := by
  unfold Machine.bracketStep
  split
  · exact ⟨trivial, hk⟩
  · exact ⟨⟨fun _ hx => absurd hx List.not_mem_nil, fun _ hchunk => row_of_chunk hg hchunk⟩,
      hk.enter hseed⟩

/-! ## Values and errors -/

theorem numberStep_within {v : Value} {op : Op} {next : Float → Config} (hk : K.Keeps first k c)
    (hnext : ∀ x, K.Within first (next x)) :
    K.Within first (Machine.numberStep v op k c next) := by
  unfold Machine.numberStep
  split
  · exact ⟨trivial, hk⟩
  · exact hnext _

theorem againStep_within {m : Machine} {v : Value} {name : String} {body : Group} {count : UInt64}
    {around : Nat} (hv : K.Made v) (hk : K.Keeps first (.again name body count around :: k) c) :
    K.Within first (m.againStep v name body count around k c) := by
  unfold Machine.againStep
  split
  · split
    · exact ⟨trivial, hk⟩
    · exact ⟨⟨Frame.all_nil, hk.head⟩, (hk.pop trivial).push hk.head trivial⟩
  · exact ⟨hv, hk.pop trivial⟩

theorem resume_within {m : Machine} {v : Value} (hv : K.Made v) (hk : K.Keeps first (w :: k) c) :
    K.Within first (m.resume v k c w) := by
  have hw := hk.head
  cases w with
  | left op right p =>
    obtain ⟨hright, hp⟩ := hw
    have hk := hk.pop trivial
    exact numberStep_within hk fun x => ⟨does_task hright, hk.push hp trivial⟩
  | right op x p =>
    have hk := hk.pop trivial
    refine numberStep_within hk fun y => ?_
    unfold Machine.resultStep
    split
    · exact ⟨hw _, hk⟩
    · exact ⟨trivial, hk⟩
  | target name p =>
    obtain ⟨htarget, hp⟩ := hw
    exact ⟨hp _, (hk.pop trivial).assign ⟨htarget, hv⟩⟩
  | operand rest => exact ⟨⟨hv, hw⟩, hk.pop trivial⟩
  | leave seed => exact ⟨hv, hk.leave⟩
  | branch whenTrue whenFalse =>
    refine ⟨⟨Frame.all_nil, ?_⟩, hk.pop trivial⟩
    split
    · exact hw.1
    · exact hw.2
  | again name body count around => exact againStep_within hv hk
  | cut name =>
    simp only [Machine.resume]
    split
    · exact ⟨hv, (hk.pop trivial).congr rfl⟩
    · exact ⟨trivial, hk.pop trivial⟩
  | print => exact ⟨trivial, (hk.pop trivial).congr rfl⟩
  | argument param body => exact bodyStep_within (Frame.all_single hv) hw (hk.pop trivial)
  | attach frames => exact ⟨hv, hk.attach⟩
  | program => exact ⟨hv, hk.pop trivial⟩

theorem unwind_within {e : RuntimeError} (hk : K.Keeps first (w :: k) c) :
    K.Within first ⟨.error e, k, Machine.unwind c w⟩ := by
  refine ⟨trivial, ?_⟩
  cases w with
  | leave seed => exact hk.leave
  | again name body count around => exact (hk.pop trivial).congr rfl
  | attach frames => exact hk.attach
  | program => exact (hk.pop trivial).congr rfl
  | _ => exact hk.pop trivial

/-! ## Steps -/

theorem step_within {m : Machine} {s s' : Config} (h : m.step s = some s')
    (hs : K.Within first s) : K.Within first s' := by
  obtain ⟨task, k, c⟩ := s
  obtain ⟨does, hk⟩ := hs
  cases task with
  | value v =>
    cases k with
    | nil => cases h
    | cons w k =>
      cases h
      exact resume_within does hk
  | error e =>
    cases k with
    | nil => cases h
    | cons w k =>
      cases h
      exact unwind_within hk
  | term t =>
    cases h
    exact termStep_within does hk
  | bracket seed g =>
    cases h
    exact bracketStep_within does.1 does.2 hk
  | chunks done others =>
    obtain ⟨hdone, hothers⟩ := does
    cases others with
    | nil =>
      cases h
      exact ⟨⟨trivial, hdone⟩, hk⟩
    | cons chunk others =>
      cases h
      obtain ⟨hchunk, hothers⟩ := List.forall_mem_cons.mp hothers
      refine ⟨⟨?_, hdone, hothers⟩, hk⟩
      simpa only [Place.start, List.reverse_reverse, List.append_nil] using hchunk
  | sweep p =>
    cases h
    exact sweepStep_within does hk
  | rest last operands =>
    obtain ⟨hlast, hoperands⟩ := does
    cases operands with
    | nil =>
      cases h
      exact ⟨hlast, hk⟩
    | cons x operands =>
      cases h
      obtain ⟨hx, hoperands⟩ := List.forall_mem_cons.mp hoperands
      exact ⟨does_task hx, hk.push hoperands trivial⟩

theorem steps_within {m : Machine} {s s' : Config} (h : Steps m s s')
    (hs : K.Within first s) : K.Within first s' := by
  induction h with
  | refl => exact hs
  | cons h _ ih => exact ih (step_within h hs)

/-! ## Entries -/

theorem start_within {entry : Entry} (hcode : K.lists entry.code) (hseed : entry.seed.All K.Made)
    (hc : c.scopes.All K.Made) : K.Within c.scopes (entry.start c) := by
  have hsame : List.Forall₂ (Frame.LocalWrites K.May) c.scopes.locals c.scopes.locals :=
    List.forall₂_same.mpr fun _ _ => .refl
  have hk : K.Keeps c.scopes [] c := ⟨fun _ hw => absurd hw List.not_mem_nil, hc, hsame, .refl⟩
  cases entry with
  | term t => exact ⟨⟨_, hcode, List.mem_cons_self⟩, hk⟩
  | terms g =>
    exact ⟨⟨fun _ hx => absurd hx List.not_mem_nil, fun _ hchunk => row_of_chunk hcode hchunk⟩, hk⟩
  | group seed g => exact ⟨⟨hseed, hcode⟩, hk⟩
  | cond test whenTrue whenFalse => exact ⟨⟨_, hcode, List.mem_cons_self⟩, hk⟩
  | loop name body => exact ⟨⟨_, hcode, List.mem_cons_self⟩, hk⟩
  | brk name value => exact ⟨⟨_, hcode, List.mem_cons_self⟩, hk⟩
  | call name arg => exact ⟨⟨_, hcode, List.mem_cons_self⟩, hk⟩
  | program g => exact ⟨⟨Frame.all_nil, hcode⟩, hk.push trivial trivial⟩

theorem eval_keeps {m : Machine} {entry : Entry} (hcode : K.lists entry.code)
    (hseed : entry.seed.All K.Made) (hc : c.scopes.All K.Made)
    (hd : (m.eval entry c).state? = some d) : K.Keeps c.scopes [] d := by
  obtain ⟨s, hs, hlast, rfl⟩ := Machine.eval_last hd
  have hkeeps := (steps_within hs (start_within hcode hseed hc)).keeps
  rwa [Machine.waiting_of_step_none hlast] at hkeeps

theorem eval_made {m : Machine} {entry : Entry} {v : Value} (hcode : K.lists entry.code)
    (hseed : entry.seed.All K.Made) (hc : c.scopes.All K.Made)
    (hd : m.eval entry c = .done v d) : K.Made v := by
  have hs := Machine.eval_ends m entry c
  rw [hd] at hs
  exact (steps_within hs (start_within hcode hseed hc)).does

end Code

end Bracket
