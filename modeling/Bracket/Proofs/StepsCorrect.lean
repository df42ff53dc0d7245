import Bracket.Proofs.Steps

/-!
# Bracket.Proofs.StepsCorrect

The steps do what evaluation does.

`eval_ends`: when evaluating an entry finishes, with a value or with an error, the steps from the
entry end with the same value or error in the same context. So the configurations reached from an
entry are the moments of its evaluation.
-/

namespace Bracket

/-- The steps from a configuration hand the outcome to what waits below. An unfinished evaluation
has none. -/
def Ends (m : Machine) (s : Config) (k : List Waiting) : Outcome RuntimeError Context Value → Prop
  | .done v c => Steps m s ⟨.value v, k, c⟩
  | .failed e c => Steps m s ⟨.error e, k, c⟩
  | .unfinished => True

namespace Ends

variable {m : Machine} {s s' : Config} {k : List Waiting} {o : Outcome RuntimeError Context Value}

theorem of_steps (hs : Steps m s s') (h : Ends m s' k o) : Ends m s k o := by
  cases o with
  | done v c => exact hs.trans h
  | failed e c => exact hs.trans h
  | unfinished => trivial

theorem of_step (hs : m.step s = some s') (h : Ends m s' k o) : Ends m s k o :=
  of_steps (.single hs) h

/-- Going on from a value: what waits turns it into the next computation and lets errors pass. -/
theorem andThen {w : Waiting} {f : Value → Context → Outcome RuntimeError Context Value}
    (h : Ends m s (w :: k) o) (hf : ∀ v c, Ends m ⟨.value v, w :: k, c⟩ k (f v c))
    (hw : ∀ c, Machine.unwind c w = c) : Ends m s k (o.andThen f) := by
  cases o with
  | done v c => exact of_steps h (hf v c)
  | failed e c =>
    have hstep : m.step ⟨.error e, w :: k, c⟩ = some ⟨.error e, k, c⟩ := by
      simp only [Machine.step, hw]
    exact h.trans (.single hstep)
  | unfinished => trivial

/-- Tidying up after a value and after an error alike. -/
theorem afterwards {w : Waiting} {f : Context → Context} (h : Ends m s (w :: k) o)
    (hv : ∀ v c, m.resume v k c w = ⟨.value v, k, f c⟩) (he : ∀ c, Machine.unwind c w = f c) :
    Ends m s k (o.afterwards f) := by
  cases o with
  | done v c =>
    refine Steps.trans h (.single ?_)
    simp only [Machine.step, hv]
  | failed e c =>
    refine Steps.trans h (.single ?_)
    simp only [Machine.step, he]
  | unfinished => trivial

end Ends

/-- The steps that begin with a term do what `ev` does, whatever waits. -/
def TermEnds (m : Machine) (ev : Term → Eval Context Value) : Prop :=
  ∀ t k c, Ends m ⟨.term t, k, c⟩ k (ev t c)

namespace Machine

variable {m : Machine} {ev : Term → Eval Context Value} {k : List Waiting}

/-! ## Lists of terms -/

theorem operand_ends (hev : TermEnds m ev) (x : Operand) (c : Context) :
    Ends m ⟨x.task, k, c⟩ k ((m.evaluator ev).operand x c) := by
  cases x with
  | source t => exact hev t k c
  | reduced v => exact .refl

theorem rest_ends (hev : TermEnds m ev) (operands : List Operand) :
    ∀ (last : Value) (c : Context),
      Ends m ⟨.rest last operands, k, c⟩ k ((m.evaluator ev).lastOf last operands c) := by
  induction operands with
  | nil => intro last c; exact Steps.single rfl
  | cons x operands ih =>
    intro last c
    refine Ends.of_step rfl ?_
    refine Ends.andThen (operand_ends hev x c) ?_ (fun _ => rfl)
    intro v d
    exact Ends.of_step rfl (ih v d)

/-- An operand that has to be a number, and what goes on with it. -/
theorem number_ends (hev : TermEnds m ev) {op : Op} {x : Operand} {w : Waiting}
    {next : Context → Float → Config} {f : Float → Eval Context Value}
    (hw : ∀ c, unwind c w = c) (hv : ∀ v c, m.resume v k c w = numberStep v op k c (next c))
    (hf : ∀ x c, Ends m (next c x) k (f x c)) (c : Context) :
    Ends m ⟨x.task, w :: k, c⟩ k (((m.evaluator ev).number op x >>= f) c) := by
  simp only [Evaluator.number, bind_assoc]
  refine Ends.andThen (operand_ends hev x c) ?_ hw
  intro v d
  refine Ends.of_step rfl ?_
  rw [hv, numberStep]
  show Ends m _ k ((Eval.ofExcept (v.asNumber op) >>= f) d)
  cases v.asNumber op with
  | error e => exact Steps.refl
  | ok x => exact hf x d

theorem binary_ends (hev : TermEnds m ev) {op : Op} {left right : Operand} {p : Place}
    {f : Option Float → Eval Context Value}
    (hf : ∀ v c, Ends m ⟨.sweep (p.reduced v), k, c⟩ k (f v c)) (c : Context) :
    Ends m ⟨left.task, .left op right p :: k, c⟩ k
      (((m.evaluator ev).binary op left right >>= f) c) := by
  simp only [Evaluator.binary, bind_assoc]
  refine number_ends hev (fun _ => rfl) (fun _ _ => rfl) ?_ c
  intro x c
  refine number_ends hev (fun _ => rfl) (fun _ _ => rfl) ?_ c
  intro y c
  rw [resultStep, evaluator]
  cases m.arithmetic.result? op x y with
  | none => exact Steps.refl
  | some z => exact hf (some z) c

theorem reduce_ends (hev : TermEnds m ev) {op : Op} {left right : Operand} {p : Place}
    {f : Option Float → Eval Context Value}
    (hf : ∀ v c, Ends m ⟨.sweep (p.reduced v), k, c⟩ k (f v c)) (c : Context) :
    Ends m (reduceStep op left right p k c) k
      (((m.evaluator ev).reduce op left right >>= f) c) := by
  unfold reduceStep Evaluator.reduce
  split
  · cases left with
    | reduced v => exact Steps.refl
    | source t =>
      cases t with
      | ident name =>
        simp only [Evaluator.assignment, bind_assoc]
        refine Ends.andThen (operand_ends hev right c) ?_ (fun _ => rfl)
        intro v d
        exact Ends.of_step rfl (hf v.toLiteral _)
      | _ => exact Steps.refl
  · exact binary_ends hev hf c

/-- One sweep, and what goes on with the chunk it leaves. The induction follows the list to the
left; a reduction takes two operands off it at once. -/
theorem sweep_ends (hev : TermEnds m ev) (tier : Tier) (looser : List Tier)
    (done : List Operand) (others : List (List Operand)) {f : List Operand → Eval Context Value}
    (hf : ∀ passed c, Ends m ⟨.sweep ⟨tier, looser, [], passed, done, others⟩, k, c⟩ k
      (f passed c)) (before passed : List Operand) :
    ∀ c, Ends m ⟨.sweep ⟨tier, looser, before, passed, done, others⟩, k, c⟩ k
      (((m.evaluator ev).sweep tier before passed >>= f) c) := by
  induction before, passed using Evaluator.sweep.induct tier with
  | case1 passed => exact hf passed
  | case2 passed x before hx ih =>
    intro c
    refine Ends.of_step rfl ?_
    simp only [sweepStep, Evaluator.sweep, hx]
    exact ih c
  | case3 passed x op hx =>
    intro c
    refine Ends.of_step rfl ?_
    simp only [sweepStep, Evaluator.sweep, hx]
    exact Steps.refl
  | case4 passed x op hx left before hl =>
    intro c
    refine Ends.of_step rfl ?_
    simp only [sweepStep, Evaluator.sweep, hx, hl, if_true]
    exact Steps.refl
  | case5 x op hx left before hl =>
    intro c
    refine Ends.of_step rfl ?_
    simp only [sweepStep, Evaluator.sweep, hx, hl]
    exact Steps.refl
  | case6 x op hx left before hl right passed hr =>
    intro c
    refine Ends.of_step rfl ?_
    simp only [sweepStep, Evaluator.sweep, hx, hl, hr, if_true]
    exact Steps.refl
  | case7 x op hx left before hl right passed hr ih =>
    intro c
    refine Ends.of_step rfl ?_
    simp only [sweepStep, Evaluator.sweep, hx, if_neg hl, if_neg hr, bind_assoc]
    refine reduce_ends hev ?_ c
    intro v d
    exact ih v d

theorem tiers_ends (hev : TermEnds m ev) (done : List Operand) (others : List (List Operand))
    {f : List Operand → Eval Context Value}
    (hf : ∀ left c, Ends m ⟨.chunks (done ++ left) others, k, c⟩ k (f left c))
    (looser : List Tier) :
    ∀ tier chunk c, Ends m ⟨.sweep ⟨tier, looser, chunk.reverse, [], done, others⟩, k, c⟩ k
      (((m.evaluator ev).reduceTiers (tier :: looser) chunk >>= f) c) := by
  induction looser with
  | nil =>
    intro tier chunk c
    rw [Evaluator.reduceTiers, bind_assoc]
    refine sweep_ends hev tier [] done others ?_ chunk.reverse [] c
    intro passed c
    exact Ends.of_step rfl (hf passed c)
  | cons next looser ih =>
    intro tier chunk c
    rw [Evaluator.reduceTiers, bind_assoc]
    refine sweep_ends hev tier (next :: looser) done others ?_ chunk.reverse [] c
    intro passed c
    exact Ends.of_step rfl (ih next passed c)

theorem chunks_ends (hev : TermEnds m ev) (others : List (List Operand)) :
    ∀ done c, Ends m ⟨.chunks done others, k, c⟩ k
      (((m.evaluator ev).reduceChunks others >>= fun left =>
        (m.evaluator ev).lastOf .null (done ++ left)) c) := by
  induction others with
  | nil =>
    intro done c
    simp only [Evaluator.reduceChunks, pure_bind, List.append_nil]
    exact Ends.of_step rfl (rest_ends hev done .null c)
  | cons chunk others ih =>
    intro done c
    refine Ends.of_step rfl ?_
    simp only [Evaluator.reduceChunks, bind_assoc, pure_bind]
    refine tiers_ends hev done others ?_ _ _ chunk c
    intro left c
    simp only [← List.append_assoc]
    exact ih (done ++ left) c

theorem terms_ends (hev : TermEnds m ev) (g : Group) (c : Context) :
    Ends m ⟨.chunks [] (chunks g), k, c⟩ k ((m.evaluator ev).terms g c) :=
  chunks_ends hev (chunks g) [] c

/-! ## Terms -/

theorem bracket_ends (hev : TermEnds m ev) (seed : Frame) (g : Group) (c : Context) :
    Ends m ⟨.bracket seed g, k, c⟩ k (m.bracket ev seed g c) := by
  refine Ends.of_step rfl ?_
  unfold bracketStep bracket
  split
  · exact Steps.refl
  · exact Ends.afterwards (terms_ends hev g _) (fun _ _ => rfl) (fun _ => rfl)

theorem cond_ends (hev : TermEnds m ev) (test whenTrue whenFalse : Group) (c : Context) :
    Ends m ⟨.bracket [] test, .branch whenTrue whenFalse :: k, c⟩ k
      (m.cond ev test whenTrue whenFalse c) := by
  refine Ends.andThen (bracket_ends hev [] test c) ?_ (fun _ => rfl)
  intro v c
  exact Ends.of_step rfl (bracket_ends hev [] _ c)

theorem iterate_ends (hev : TermEnds m ev) (name : String) (body : Group) (around rounds : Nat) :
    ∀ count last c, Ends m ⟨.value last, .again name body count around :: k, c⟩ k
      ((m.iterate ev name body rounds count last c).onFailure fun d => d.keepLoops around) := by
  -- on the rounds, which only the loop counts: the steps go on where it gives up
  induction rounds with
  | zero => intro count last c; trivial
  | succ rounds ih =>
    intro count last c
    refine Ends.of_step rfl ?_
    show Ends m (m.againStep last name body count around k c) k _
    unfold againStep iterate
    split
    · cases m.exhausted? count with
      | some limit => exact Steps.single rfl
      | none =>
        have hbody := bracket_ends (k := .again name body (count + 1) around :: k) hev [] body c
        simp only
        cases hb : m.bracket ev [] body c with
        | done v d =>
          rw [hb] at hbody
          exact Ends.of_steps hbody (ih (count + 1) v d)
        | failed e d =>
          rw [hb] at hbody
          exact hbody.trans (.single rfl)
        | unfinished => trivial
    · exact Steps.refl

theorem brk_ends (hev : TermEnds m ev) (name : String) (value : Group) (c : Context) :
    Ends m ⟨.bracket [] value, .cut name :: k, c⟩ k (m.brk ev name value c) := by
  refine Ends.andThen (bracket_ends hev [] value c) ?_ (fun _ => rfl)
  intro v c
  refine Ends.of_step rfl ?_
  show Ends m _ k ((endLoop name >>= fun _ => pure v) c)
  simp only [resume, Eval.bind_apply, endLoop]
  cases Context.around? name c.loops with
  | none => exact Steps.refl
  | some outer => exact Steps.refl

theorem body_ends (hev : TermEnds m ev) (seed : Frame) (body : Group) (c : Context) :
    Ends m (bodyStep seed body k c) k (m.body ev seed body c) :=
  Ends.afterwards (bracket_ends hev seed body _) (fun _ _ => rfl) (fun _ => rfl)

theorem closure_ends (hev : TermEnds m ev) (param : Option String) (body : Group)
    (arg : Option Group) (c : Context) :
    Ends m (closureStep param body arg k c) k
      ((m.seed ev param arg >>= fun seed => m.body ev seed body) c) := by
  cases param with
  | none => exact body_ends hev [] body c
  | some name =>
    cases arg with
    | none => exact body_ends hev [] body c
    | some g =>
      simp only [closureStep, seed, bind_assoc, pure_bind]
      refine Ends.andThen (bracket_ends hev [] g c) ?_ (fun _ => rfl)
      intro v c
      exact Ends.of_step rfl (body_ends hev [(name, v)] body c)

theorem call_ends (hev : TermEnds m ev) (name : String) (arg : Option Group) (c : Context) :
    Ends m (callStep name arg k c) k (m.call ev name arg c) := by
  unfold callStep call
  split
  · cases arg with
    | none => exact Steps.single rfl
    | some g =>
      refine Ends.andThen (bracket_ends hev [] g c) ?_ (fun _ => rfl)
      intro v c
      exact Steps.single rfl
  · unfold callClosure
    cases c.scopes.resolve name with
    | closure param body => exact closure_ends hev param body arg c
    | null => exact Steps.refl
    | number x => exact Steps.refl

theorem termWith_ends (hev : TermEnds m ev) : TermEnds m (m.termWith ev) := by
  intro t k c
  refine Ends.of_step rfl ?_
  cases t with
  | literal v => exact Steps.refl
  | ident name => exact Steps.refl
  | op o => exact Steps.refl
  | group g => exact bracket_ends hev [] g c
  | cond test whenTrue whenFalse => exact cond_ends hev test whenTrue whenFalse c
  | loop name body =>
    simp only [termStep, termWith, loop]
    split
    · exact Steps.refl
    · exact iterate_ends hev name body _ _ _ _ _
  | brk name value => exact brk_ends hev name value c
  | closure param body => exact Steps.refl
  | call name arg => exact call_ends hev name arg c

theorem termAt_ends (levels : Nat) : TermEnds m (m.termAt levels) := by
  induction levels with
  | zero => intro t k c; trivial
  | succ levels ih => exact termWith_ends ih

theorem evalTerm_ends : TermEnds m m.evalTerm := termAt_ends m.levels

/-! ## Entries -/

theorem eval_ends (m : Machine) (entry : Entry) (c : Context) :
    Ends m (entry.start c) [] (m.eval entry c) := by
  cases entry with
  | term t => exact evalTerm_ends t [] c
  | terms g => exact terms_ends evalTerm_ends g c
  | group seed g => exact bracket_ends evalTerm_ends seed g c
  | cond test whenTrue whenFalse =>
    exact termWith_ends evalTerm_ends (.cond test whenTrue whenFalse) [] c
  | loop name body => exact termWith_ends evalTerm_ends (.loop name body) [] c
  | brk name value => exact termWith_ends evalTerm_ends (.brk name value) [] c
  | call name arg => exact termWith_ends evalTerm_ends (.call name arg) [] c
  | program g =>
    have h := bracket_ends (m := m) (k := [.program]) evalTerm_ends [] g c
    show Ends m _ [] ((m.evalGroup [] g c).onFailure _)
    unfold evalGroup
    cases hg : m.bracket m.evalTerm [] g c with
    | done v d => rw [hg] at h; exact h.trans (.single rfl)
    | failed e d => rw [hg] at h; exact h.trans (.single rfl)
    | unfinished => trivial

/-- A finished evaluation ends in the context of a configuration from which no step leads on. -/
theorem eval_last {entry : Entry} {c d : Context} (h : (m.eval entry c).state? = some d) :
    ∃ s, Steps m (entry.start c) s ∧ m.step s = none ∧ s.context = d := by
  have hends := eval_ends m entry c
  cases he : m.eval entry c with
  | done v e =>
    rw [he] at h hends
    cases h
    exact ⟨_, hends, rfl, rfl⟩
  | failed e e' =>
    rw [he] at h hends
    cases h
    exact ⟨_, hends, rfl, rfl⟩
  | unfinished => rw [he] at h; cases h

/-- Running a text either leaves the context alone or evaluates a program. -/
theorem run_state {source : String} {c d : Context} (h : (m.run source c).state? = some d) :
    d = c ∨ ∃ g, (m.eval (.program g) c).state? = some d := by
  unfold run at h
  split at h
  · cases h
    exact .inl rfl
  · rename_i g _
    refine .inr ⟨g, ?_⟩
    show (m.evalProgram g c).state? = some d
    cases hg : m.evalProgram g c with
    | done v e => rw [hg] at h; exact h
    | failed e e' => rw [hg] at h; exact h
    | unfinished => rw [hg] at h; cases h

end Machine

end Bracket
