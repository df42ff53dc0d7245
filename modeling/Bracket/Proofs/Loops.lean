import Bracket.Proofs.Changes
import Bracket.Proofs.StepsCorrect

/-!
# Bracket.Proofs.Loops

The list of running loops. No name is in it twice at any moment of an evaluation, and when the
evaluation is over the list is a tail of what it was (`loops_nodup_and_suffix`).

A break may end loops far outside the term that is being evaluated, and names may be started again
after it. What carries the induction is `Stacked`: at every moment the running loops are a tail of
the innermost waiting loop on top of the loops that ran when it began, and so on outwards.
-/

namespace Bracket

/-- Each waiting loop was begun on top of some loops, and the loops running now are a tail of the
stack that the innermost of them made. Below all of them lie the loops of the beginning. -/
def Stacked (first : List String) : List Guard → List String → Prop
  | [], loops => loops <:+ first
  | .loop name around :: g, loops =>
    ∃ outer, outer.length = around ∧ loops <:+ name :: outer ∧ Stacked first g outer
  | _ :: g, loops => Stacked first g loops

namespace Stacked

variable {first loops loops' : List String}

/-- Ending loops keeps what is stacked, however many waiting loops they are beneath. -/
theorem suffix {g : List Guard} (hs : loops' <:+ loops) (h : Stacked first g loops) :
    Stacked first g loops' := by
  induction g with
  | nil => exact hs.trans h
  | cons w g ih =>
    cases w with
    | loop name around =>
      obtain ⟨outer, hlen, hloops, houter⟩ := h
      exact ⟨outer, hlen, hs.trans hloops, houter⟩
    | leave seed => exact ih h
    | attach frames => exact ih h
    | program => exact ih h

/-- A loop that is not the innermost one any more was cut away with everything inside it. -/
theorem of_head {g : List Guard} {name : String} {around : Nat}
    (h : Stacked first (.loop name around :: g) loops) (hhead : loops.head? ≠ some name) :
    Stacked first g loops := by
  obtain ⟨outer, -, hloops, houter⟩ := h
  rcases List.suffix_cons_iff.mp hloops with heq | hs
  · rw [heq] at hhead
    exact absurd rfl hhead
  · exact houter.suffix hs

/-- A loop that fails leaves at most the loops that ran when it began. -/
theorem keep {g : List Guard} {name : String} {around : Nat}
    (h : Stacked first (.loop name around :: g) loops) :
    Stacked first g (loops.drop (loops.length - around)) := by
  obtain ⟨outer, hlen, hloops, houter⟩ := h
  refine houter.suffix ?_
  have hdrop : loops.drop (loops.length - around) <:+ name :: outer :=
    (List.drop_suffix _ _).trans hloops
  refine List.suffix_of_suffix_length_le hdrop (List.suffix_cons _ _) ?_
  rw [List.length_drop]
  omega

end Stacked

theorem cons_suffix_of_around? {name : String} {loops outer : List String}
    (h : Context.around? name loops = some outer) : name :: outer <:+ loops := by
  induction loops with
  | nil => cases h
  | cons n loops ih =>
    unfold Context.around? at h
    split at h
    · rename_i hn
      cases h
      exact ⟨[], by rw [hn]; rfl⟩
    · exact (ih h).trans (List.suffix_cons _ _)

theorem around?_suffix {name : String} {loops outer : List String}
    (h : Context.around? name loops = some outer) : outer <:+ loops :=
  (List.suffix_cons _ _).trans (cons_suffix_of_around? h)

/-- No loop runs twice, and the running loops are stacked on those of the beginning. -/
def LoopsKept (first : List String) (g : List Guard) (c : Context) : Prop :=
  c.loops.Nodup ∧ Stacked first g c.loops

theorem Change.loopsKept {m : Machine} {first : List String} {g g' : List Guard} {c c' : Context}
    (h : Change m g c g' c') (hc : LoopsKept first g c) : LoopsKept first g' c' := by
  obtain ⟨hnodup, hstacked⟩ := hc
  cases h with
  | cut hcut =>
    have hs := around?_suffix hcut
    exact ⟨hnodup.sublist hs.sublist, hstacked.suffix hs⟩
  | startLoop hname =>
    exact ⟨List.nodup_cons.mpr ⟨hname, hnodup⟩, c.loops, rfl, List.suffix_refl _, hstacked⟩
  | endLoop hhead => exact ⟨hnodup, hstacked.of_head hhead⟩
  | abandonLoop => exact ⟨hnodup.sublist (List.drop_sublist _ _), hstacked.keep⟩
  | fail => exact ⟨List.nodup_nil, hstacked.suffix (List.nil_suffix)⟩
  | _ => exact ⟨hnodup, hstacked⟩

theorem start_loopsKept {c : Context} (h : c.loops.Nodup) (entry : Entry) :
    LoopsKept c.loops (entry.start c).guards (entry.start c).context := by
  cases entry <;> exact ⟨h, List.suffix_refl _⟩

theorem steps_loopsKept {m : Machine} {entry : Entry} {c : Context} {s : Config}
    (h : c.loops.Nodup) (hs : Steps m (entry.start c) s) :
    LoopsKept c.loops s.guards s.context :=
  Machine.steps_invariant (fun hchange => hchange.loopsKept) hs (start_loopsKept h entry)

/-- Nothing is in the way of the loops of the beginning any more. -/
theorem steps_suffix {m : Machine} {entry : Entry} {c : Context} {s : Config}
    (h : c.loops.Nodup) (hs : Steps m (entry.start c) s) (hlast : m.step s = none) :
    s.context.loops <:+ c.loops := by
  have hkept := (steps_loopsKept h hs).2
  rwa [Config.guards, Machine.waiting_of_step_none hlast] at hkept

theorem eval_suffix {m : Machine} {entry : Entry} {c d : Context} (h : c.loops.Nodup)
    (hd : (m.eval entry c).state? = some d) : d.loops <:+ c.loops := by
  obtain ⟨s, hs, hlast, rfl⟩ := Machine.eval_last hd
  exact steps_suffix h hs hlast

theorem Reached.loops_eq_nil {m : Machine} {n : Nat} {c : Context} (h : Reached m n c) :
    c.loops = [] := by
  induction h with
  | fresh => rfl
  | opened seed _ ih => exact ih
  | closed _ ih => exact ih
  | evaluated _ hd ih =>
    have hs := eval_suffix (by rw [ih]; exact List.nodup_nil) hd
    rwa [ih, List.suffix_nil] at hs
  | ran _ hd ih =>
    rcases Machine.run_state hd with rfl | ⟨g, hg⟩
    · exact ih
    · have hs := eval_suffix (by rw [ih]; exact List.nodup_nil) hg
      rwa [ih, List.suffix_nil] at hs

/-- Whatever is evaluated, from running loops with different names: at every moment the running
loops have different names, and at the last one, if there is one, they are a tail of those that ran
before. A finished evaluation ends with its last moment. So no session leaves a loop running between
two calls. -/
theorem loops_nodup_and_suffix (m : Machine) :
    (∀ (entry : Entry) (c : Context), c.loops.Nodup →
      (∀ s, Steps m (entry.start c) s →
        s.context.loops.Nodup ∧ (m.step s = none → s.context.loops <:+ c.loops)) ∧
      ∀ d, (m.eval entry c).state? = some d →
        (∃ s, Steps m (entry.start c) s ∧ m.step s = none ∧ s.context = d) ∧
        d.loops <:+ c.loops) ∧
    ∀ n c, Reached m n c → c.loops = [] := by
  refine ⟨fun entry c h => ⟨fun s hs => ⟨?_, ?_⟩, fun d hd => ⟨?_, ?_⟩⟩, ?_⟩
  · exact (steps_loopsKept h hs).1
  · exact steps_suffix h hs
  · exact Machine.eval_last hd
  · exact eval_suffix h hd
  · exact fun n c h => h.loops_eq_nil

/-- A loop that breaks the loop around it, and then starts one of that name and fails in it. -/
theorem loops_after_failure :
    let m : Machine := { patience := 3 }
    let c : Context := { Context.fresh with loops := ["outer"] }
    let entry : Entry := .loop "inner" [.brk "outer" [], .op .comma, .loop "outer" [.call "f" none]]
    c.loops.Nodup ∧
    (∃ d, (m.eval entry c).state? = some d ∧ d.loops <:+ ["outer"] ∧
      ∃ s, Steps m (entry.start c) s ∧ m.step s = none ∧ s.context = d ∧ d.loops.Nodup) ∧
    ∃ d, (m.eval entry Context.fresh).state? = some d ∧ Reached m 0 d ∧ d.loops = [] := by
  intro m c entry
  have hc : c.loops.Nodup := by decide
  obtain ⟨hsteps, heval⟩ := (loops_nodup_and_suffix m).1 entry c hc
  have hd : ∃ d, (m.eval entry c).state? = some d := ⟨_, rfl⟩
  obtain ⟨d, hd⟩ := hd
  obtain ⟨⟨s, hs, hlast, rfl⟩, hsuffix⟩ := heval d hd
  have he : ∃ e, (m.eval entry Context.fresh).state? = some e := ⟨_, rfl⟩
  obtain ⟨e, he⟩ := he
  have hr : Reached m 0 e := .evaluated .fresh he
  refine ⟨hc, ⟨_, hd, hsuffix, s, hs, hlast, rfl, (hsteps s hs).1⟩, ?_⟩
  exact ⟨e, he, hr, (loops_nodup_and_suffix m).2 0 e hr⟩

end Bracket
