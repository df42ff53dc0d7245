import Bracket.Proofs.Effects
import Bracket.Proofs.Loops

/-!
# Bracket.Proofs.Breaks

Which of the loops that ran before an evaluation run after it. A name stands for one activation at a
time, but the same name may be broken and begun again while the evaluation goes on. `Lasts` follows
an activation through that: it is the one that ran before as long as the stack has had it at the
bottom all the way. So `Broken` speaks of the loops that were there first, and of no others.

An evaluation that gives a value leaves these loops as they were, or cut at the outermost one that
was broken (`loops_cut`).
-/

namespace Bracket

/-- On the way from the first configuration to the second, these loops are always the outermost. -/
inductive Lasts (m : Machine) (stack : List String) (first : Config) : Config → Prop
  | start (bottom : stack <:+ first.context.loops) : Lasts m stack first first
  | step {s s' : Config} (before : Lasts m stack first s) (next : m.step s = some s')
      (bottom : stack <:+ s'.context.loops) : Lasts m stack first s'

/-- A loop that runs at the first configuration, inside the loops `outer`, is broken. -/
def Broken (m : Machine) (first : Config) (name : String) (outer : List String) : Prop :=
  ∃ v k c, Lasts m (name :: outer) first ⟨.value v, .cut name :: k, c⟩

namespace Lasts

variable {m : Machine} {stack stack' : List String} {first s : Config}

theorem bottom (h : Lasts m stack first s) : stack <:+ s.context.loops := by
  cases h with
  | start bottom => exact bottom
  | step _ _ bottom => exact bottom

theorem bottom_first (h : Lasts m stack first s) : stack <:+ first.context.loops := by
  induction h with
  | start bottom => exact bottom
  | step _ _ _ ih => exact ih

theorem steps (h : Lasts m stack first s) : Steps m first s := by
  induction h with
  | start _ => exact .refl
  | step _ next _ ih => exact ih.trans (.single next)

theorem mono (hs : stack' <:+ stack) (h : Lasts m stack first s) : Lasts m stack' first s := by
  induction h with
  | start bottom => exact .start (hs.trans bottom)
  | step _ next bottom ih => exact .step ih next (hs.trans bottom)

/-- Only the steps of the machine play a part. -/
theorem congr {m' : Machine} (hm : m'.step = m.step) (h : Lasts m stack first s) :
    Lasts m' stack first s := by
  induction h with
  | start bottom => exact .start bottom
  | step _ next bottom ih => exact .step ih (hm ▸ next) bottom

end Lasts

theorem Broken.congr {m m' : Machine} (hm : m'.step = m.step) {first : Config} {name : String}
    {outer : List String} (h : Broken m first name outer) : Broken m' first name outer := by
  obtain ⟨v, k, c, h⟩ := h
  exact ⟨v, k, c, h.congr hm⟩

theorem Broken.suffix {m : Machine} {entry : Entry} {c : Context} {name : String}
    {outer : List String} (h : Broken m (entry.start c) name outer) : name :: outer <:+ c.loops := by
  obtain ⟨v, k, e, h⟩ := h
  have hfirst := h.bottom_first
  cases entry <;> exact hfirst

theorem Broken.length_lt {m : Machine} {entry : Entry} {c : Context} {name : String}
    {outer : List String} (h : Broken m (entry.start c) name outer) :
    outer.length < c.loops.length := h.suffix.length_le

/-! ## Steps to the end -/

/-- The steps before the last one pass by every configuration that can be reached. -/
theorem Steps.to_last {m : Machine} {s s' last : Config} (h : Steps m s last)
    (hlast : m.step last = none) (h' : Steps m s s') : Steps m s' last := by
  induction h' with
  | refl => exact h
  | cons hs _ ih =>
    cases h with
    | refl => cases hlast.symm.trans hs
    | cons hs' rest =>
      cases hs.symm.trans hs'
      exact ih rest

/-- An error stays one. -/
theorem Steps.error {m : Machine} {s s' : Config} (h : Steps m s s')
    (he : ∃ e, s.task = .error e) : ∃ e, s'.task = .error e := by
  induction h with
  | refl => exact he
  | @cons s s' s'' hs _ ih =>
    refine ih ?_
    obtain ⟨task, k, c⟩ := s
    obtain ⟨e, rfl⟩ := he
    cases k with
    | nil => cases hs
    | cons w k =>
      cases hs
      exact ⟨e, rfl⟩

/-! ## Cuts -/

/-- A name runs once, so a break finds the loop that is meant. -/
theorem Context.around?_of_suffix {name : String} {loops outer : List String}
    (hnodup : loops.Nodup) (h : name :: outer <:+ loops) :
    Context.around? name loops = some outer := by
  induction loops with
  | nil => cases List.suffix_nil.mp h
  | cons n loops ih =>
    obtain ⟨hn, hloops⟩ := List.nodup_cons.mp hnodup
    unfold Context.around?
    rcases List.suffix_cons_iff.mp h with heq | hs
    · cases heq
      rw [if_pos rfl]
    · have hmem : name ∈ loops := hs.subset List.mem_cons_self
      rw [if_neg (fun heq : n = name => hn (heq ▸ hmem))]
      exact ih hloops hs

/-! ## What a break leaves -/

/-- The loops that run are those around a broken loop, and those whose guards came later. -/
def Left (outer : List String) (g : List Guard) (c : Context) : Prop :=
  ∃ new old, g = new ++ old ∧ Stacked outer new c.loops

/-- A guard that goes is one of the later ones, or there are none of these any more. -/
theorem Left.pop {outer : List String} {w : Guard} {g : List Guard} {c c' : Context}
    (h : Left outer (w :: g) c) (hs : c'.loops <:+ c.loops)
    (hw : ∀ new, Stacked outer (w :: new) c.loops → Stacked outer new c'.loops) :
    Left outer g c' := by
  obtain ⟨new, old, hg, hstacked⟩ := h
  cases new with
  | nil =>
    cases hg
    exact ⟨[], g, rfl, hstacked.suffix hs⟩
  | cons w' new =>
    cases hg
    exact ⟨new, old, rfl, hw new hstacked⟩

theorem Change.left {m : Machine} {outer : List String} {g g' : List Guard} {c c' : Context}
    (h : Change m g c g' c') (hc : Left outer g c) : Left outer g' c' := by
  cases h with
  | cut hcut =>
    obtain ⟨new, old, hg, hstacked⟩ := hc
    exact ⟨new, old, hg, hstacked.suffix (around?_suffix hcut)⟩
  | enter seed =>
    obtain ⟨new, old, hg, hstacked⟩ := hc
    exact ⟨.leave seed :: new, old, congrArg _ hg, hstacked⟩
  | detach =>
    obtain ⟨new, old, hg, hstacked⟩ := hc
    exact ⟨.attach _ :: new, old, congrArg _ hg, hstacked⟩
  | startLoop hname =>
    obtain ⟨new, old, hg, hstacked⟩ := hc
    exact ⟨.loop _ _ :: new, old, congrArg _ hg, c.loops, rfl, List.suffix_refl _, hstacked⟩
  | endLoop hhead => exact hc.pop (List.suffix_refl _) fun new hnew => hnew.of_head hhead
  | abandonLoop => exact hc.pop (List.drop_suffix _ _) fun new hnew => hnew.keep
  | fail => exact hc.pop List.nil_suffix fun new hnew => Stacked.suffix List.nil_suffix hnew
  | leave => exact hc.pop (List.suffix_refl _) fun new hnew => hnew
  | attach => exact hc.pop (List.suffix_refl _) fun new hnew => hnew
  | succeed => exact hc.pop (List.suffix_refl _) fun new hnew => hnew
  | _ => exact hc

variable {m : Machine} {entry : Entry} {c d : Context}

/-- No loop that was running inside a broken one runs at the end, nor does the broken one. -/
theorem suffix_of_broken (hc : c.loops.Nodup) {last : Config}
    (hsteps : Steps m (entry.start c) last) (hlast : m.step last = none) {name : String}
    {outer : List String} (h : Broken m (entry.start c) name outer) :
    last.context.loops <:+ outer := by
  obtain ⟨v, k, e, hlasts⟩ := h
  have hnodup : e.loops.Nodup := (steps_loopsKept hc hlasts.steps).1
  have hcut := Context.around?_of_suffix hnodup hlasts.bottom
  have hstep : m.step ⟨.value v, .cut name :: k, e⟩ =
      some ⟨.value v, k, { e with loops := outer }⟩ := by
    simp only [Machine.step, Machine.resume, hcut]
  have hrest := hsteps.to_last hlast (hlasts.steps.trans (.single hstep))
  have hleft : Left outer last.guards last.context :=
    Machine.steps_invariant (fun hchange => hchange.left) hrest
      ⟨[], _, rfl, List.suffix_refl outer⟩
  obtain ⟨new, old, hg, hstacked⟩ := hleft
  rw [Config.guards, Machine.waiting_of_step_none hlast] at hg
  obtain ⟨rfl, -⟩ := List.append_eq_nil_iff.mp hg.symm
  exact hstacked

/-- Some loops have lasted: those that ran at first, or those around one that was broken. -/
def Survives (m : Machine) (first s : Config) : Prop :=
  ∃ stack, Lasts m stack first s ∧
    (stack = first.context.loops ∨ ∃ name, Broken m first name stack)

theorem Survives.step {first s s' : Config} (h : Survives m first s) (hs : m.step s = some s')
    (herror : ∀ e, s.task ≠ .error e) : Survives m first s' := by
  obtain ⟨stack, hlasts, hstack⟩ := h
  have hbottom := hlasts.bottom
  cases Machine.step_effect hs with
  | calm hcalm => exact ⟨stack, hlasts.step hs (hbottom.trans hcalm.loops), hstack⟩
  | assign => exact ⟨stack, hlasts.step hs hbottom, hstack⟩
  | @cut v name k c outer hcut =>
    have hname := cons_suffix_of_around? hcut
    have hle : stack <:+ outer ∨ name :: outer <:+ stack := by
      rcases List.suffix_or_suffix_of_suffix hbottom hname with hle | hle
      · rcases List.suffix_cons_iff.mp hle with rfl | hle
        · exact .inr (List.suffix_refl _)
        · exact .inl hle
      · exact .inr hle
    rcases hle with hle | hle
    · exact ⟨stack, hlasts.step hs hle, hstack⟩
    · -- the break reaches into what has lasted
      have hbroken : Broken m first name outer := ⟨v, k, c, hlasts.mono hle⟩
      have houter : Lasts m outer first _ := hlasts.mono ((List.suffix_cons _ _).trans hle)
      exact ⟨outer, houter.step hs (List.suffix_refl _), .inr ⟨name, hbroken⟩⟩
  | unwind => exact absurd rfl (herror _)

theorem Survives.steps {first s s' : Config} (h : Survives m first s) (hs : Steps m s s')
    (herror : ∀ e, s'.task ≠ .error e) : Survives m first s' := by
  induction hs with
  | refl => exact h
  | cons hstep rest ih =>
    refine ih (h.step hstep fun e he => ?_) herror
    obtain ⟨e', he'⟩ := (Steps.cons hstep rest).error ⟨e, he⟩
    exact herror e' he'

/-- An evaluation that gives a value leaves the loops running that ran before, if none of them was
broken, and otherwise those around the outermost one that was broken. -/
theorem loops_cut (hc : c.loops.Nodup) {v : Value} (hd : m.eval entry c = .done v d) :
    (d.loops = c.loops ∧ ∀ name outer, ¬ Broken m (entry.start c) name outer) ∨
      (∃ name, Broken m (entry.start c) name d.loops) ∧
        ∀ name outer, Broken m (entry.start c) name outer → d.loops <:+ outer := by
  have hends := Machine.eval_ends m entry c
  rw [hd] at hends
  have hends : Steps m (entry.start c) ⟨.value v, [], d⟩ := hends
  have hfirst : (entry.start c).context.loops = c.loops := by cases entry <;> rfl
  have hbroken : ∀ {name outer}, Broken m (entry.start c) name outer → d.loops <:+ outer :=
    fun h => suffix_of_broken hc hends rfl h
  have hstart : Survives m (entry.start c) (entry.start c) :=
    ⟨_, .start (List.suffix_refl _), .inl rfl⟩
  obtain ⟨stack, hlasts, rfl | ⟨name, hname⟩⟩ := hstart.steps hends nofun
  · have heq : d.loops = c.loops := by
      have hsuffix := steps_suffix hc hends rfl
      have hbottom := hlasts.bottom
      rw [hfirst] at hbottom
      exact hsuffix.eq_of_length_le hbottom.length_le
    refine .inl ⟨heq, fun name outer h => ?_⟩
    have hfit := h.length_lt
    rw [← heq] at hfit
    exact absurd (hbroken h).length_le (Nat.not_le.mpr hfit)
  · have heq : d.loops = stack := (hbroken hname).eq_of_length_le hlasts.bottom.length_le
    exact .inr ⟨⟨name, heq ▸ hname⟩, fun _ _ => hbroken⟩

/-- Nothing is broken exactly if the same loops run. -/
theorem unbroken_iff (hc : c.loops.Nodup) {v : Value} (hd : m.eval entry c = .done v d) :
    (∀ name outer, ¬ Broken m (entry.start c) name outer) ↔ d.loops = c.loops := by
  rcases loops_cut hc hd with ⟨heq, hnone⟩ | ⟨⟨name, hname⟩, -⟩
  · exact ⟨fun _ => heq, fun _ => hnone⟩
  · refine ⟨fun hnone => absurd hname (hnone name _), fun heq => ?_⟩
    have hfit := hname.length_lt
    rw [heq] at hfit
    exact absurd hfit (Nat.lt_irrefl _)

end Bracket
