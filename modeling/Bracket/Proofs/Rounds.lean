import Bracket.Proofs.Breaks
import Bracket.Proofs.Limits

/-!
# Bracket.Proofs.Rounds

The rounds of a loop. Its body is evaluated again and again, each time from the context that the
time before left, until a break ends the loop or one of the loops around it, or until the limit is
reached (`loop_ends_when_broken`).

`Rounds` puts together the rounds in which nothing of this is broken. After each of them the loops
run that ran before, so the loop is the innermost one again and goes on; a round in which something
is broken leaves fewer, and the loop is not the innermost one any more.

* `Rounds.loops_eq`: the loop invariant.
* `steps_rounds`, `iterate_rounds`: so many rounds, for the machine and for the evaluator.
* `head?_of_broken`: after a break no loop of this name runs, even if one was begun again.
-/

namespace Bracket

/-- The configuration in which a body is begun. -/
def bodyStart (body : Group) (c : Context) : Config := (Entry.group [] body).start c

/-- The body is evaluated `n` times, the first time from `c` and then from where it ended. No break
ends a loop that ran at the beginning of its round. The last value, null if there is none, is `v`. -/
inductive Rounds (m : Machine) (body : Group) (c : Context) : Nat → Value → Context → Prop
  | none : Rounds m body c 0 .null c
  | next {n : Nat} {v w : Value} {d e : Context} (before : Rounds m body c n v d)
      (round : m.eval (.group [] body) d = .done w e)
      (whole : ∀ name outer, ¬ Broken m (bodyStart body d) name outer) :
      Rounds m body c (n + 1) w e

/-- So many rounds are not more than the limit. -/
def Machine.Permits (m : Machine) (n : Nat) : Prop :=
  ∀ limit, m.maxIterations = some limit → n ≤ limit.toNat

namespace Rounds

variable {m : Machine} {name : String} {body : Group} {c d : Context} {n : Nat} {v : Value}

theorem loops_eq (hc : c.loops.Nodup) (h : Rounds m body c n v d) : d.loops = c.loops := by
  induction h with
  | none => rfl
  | next _ round whole ih =>
    exact ((unbroken_iff (ih ▸ hc) round).mp whole).trans ih

end Rounds

/-- The loop has run its body `n` times, with this value last, and is about to see whether it is
the innermost one. Around it `around` loops were running when it began. -/
def loopAt (name : String) (body : Group) (around n : Nat) (v : Value) (d : Context) : Config :=
  ⟨.value v, [.again name body (UInt64.ofNat n) around], d⟩

namespace Machine

variable {m : Machine} {name : String} {body : Group} {c d e : Context} {n : Nat} {v w : Value}

theorem ofNat_succ (n : Nat) : UInt64.ofNat (n + 1) = UInt64.ofNat n + 1 := by
  simp

/-- The counter is the number of rounds for as long as there is a limit to compare it with. -/
theorem toNat_ofNat_of_permits (h : m.Permits n) (hlimit : m.maxIterations ≠ none) :
    (UInt64.ofNat n).toNat = n := by
  obtain ⟨limit, hl⟩ := Option.ne_none_iff_exists'.mp hlimit
  exact UInt64.toNat_ofNat_of_lt' (Nat.lt_of_le_of_lt (h limit hl) limit.toNat_lt)

theorem exhausted?_of_permits (h : m.Permits (n + 1)) : m.exhausted? (UInt64.ofNat n) = none := by
  unfold exhausted?
  cases hl : m.maxIterations with
  | none => rfl
  | some limit =>
    have hle := h limit hl
    have hn : (UInt64.ofNat n).toNat = n :=
      toNat_ofNat_of_permits (fun l hl' => Nat.le_of_succ_le (h l hl')) (by simp [hl])
    simp only [ite_eq_right_iff, reduceCtorEq, imp_false, UInt64.le_iff_toNat_le, hn]
    omega

theorem Permits.pred (h : m.Permits (n + 1)) : m.Permits n :=
  fun limit hl => Nat.le_of_succ_le (h limit hl)

/-! ## Round by round -/

theorem steps_round {around : Nat} (round : m.eval (.group [] body) d = .done w e)
    (hhead : d.loops.head? = some name) (hpermits : m.Permits (n + 1)) :
    Steps m (loopAt name body around n v d) (loopAt name body around (n + 1) w e) := by
  have hbody := bracket_ends (m := m) (k := [.again name body (UInt64.ofNat (n + 1)) around])
    evalTerm_ends [] body d
  rw [show m.bracket m.evalTerm [] body d = .done w e from round] at hbody
  have hstep : m.step (loopAt name body around n v d) =
      some ⟨.bracket [] body, [.again name body (UInt64.ofNat (n + 1)) around], d⟩ := by
    simp only [loopAt, step, resume, againStep, if_pos hhead, exhausted?_of_permits hpermits,
      ofNat_succ]
  exact .cons hstep hbody

theorem steps_rounds (hc : c.loops.Nodup) (hhead : c.loops.head? = some name) {around : Nat}
    (h : Rounds m body c n v d) (hpermits : m.Permits n) :
    Steps m (loopAt name body around 0 .null c) (loopAt name body around n v d) := by
  induction h with
  | none => exact .refl
  | next before round _ ih =>
    have hd := before.loops_eq hc
    exact (ih hpermits.pred).trans (steps_round round (by rw [hd]; exact hhead) hpermits)

theorem iterate_rounds (hc : c.loops.Nodup) (hhead : c.loops.head? = some name)
    (h : Rounds m body c n v d) (hpermits : m.Permits n) : ∀ more,
    m.iterate m.evalTerm name body (n + more) 0 .null c =
      m.iterate m.evalTerm name body more (UInt64.ofNat n) v d := by
  induction h with
  | none => intro more; rw [Nat.zero_add]; rfl
  | @next n v w d e before round whole ih =>
    intro more
    have hd : d.loops.head? = some name := by rw [before.loops_eq hc]; exact hhead
    have hbody : m.bracket m.evalTerm [] body d = .done w e := round
    rw [Nat.add_right_comm, Nat.add_assoc, ih hpermits.pred, iterate, if_pos hd,
      exhausted?_of_permits hpermits, ofNat_succ]
    simp only [hbody]

/-! ## More patience -/

theorem step_withPatience (m : Machine) (patience : Nat) :
    ({ m with patience := patience } : Machine).step = m.step := rfl

theorem eval_withPatience {patience : Nat} (hle : m.patience ≤ patience) {entry : Entry}
    (h : m.eval entry c = .done v d) :
    ({ m with patience := patience } : Machine).eval entry c = .done v d := by
  have hfollows := eval_follows (allows_withPatience hle) entry c c rfl
  rcases eq_or_unfinished_of_agree hfollows with heq | hunfinished
  · exact heq ▸ h
  · cases h.symm.trans hunfinished

end Machine

theorem Rounds.withPatience {m : Machine} {body : Group} {c d : Context} {n : Nat} {v : Value}
    {patience : Nat} (hle : m.patience ≤ patience) (h : Rounds m body c n v d) :
    Rounds { m with patience := patience } body c n v d := by
  induction h with
  | none => exact .none
  | next _ round whole ih =>
    refine .next ih (Machine.eval_withPatience hle round) fun name outer hbroken => ?_
    exact whole name outer (hbroken.congr (Machine.step_withPatience _ patience).symm)

/-! ## The end of a loop -/

namespace Machine

variable {m : Machine} {name : String} {body : Group} {c d e : Context} {n : Nat} {v w : Value}

theorem eval_loop (hname : name ∉ c.loops) :
    m.eval (.loop name body) c =
      (m.iterate m.evalTerm name body m.rounds 0 .null (c.startLoop name)).onFailure
        fun d => d.keepLoops c.loops.length := by
  show m.loop m.evalTerm name body c = _
  rw [loop, if_neg hname]

theorem nodup_startLoop (hc : c.loops.Nodup) (hname : name ∉ c.loops) :
    (c.startLoop name).loops.Nodup := List.nodup_cons.mpr ⟨hname, hc⟩

theorem eval_loop_of_ended (hc : c.loops.Nodup) (hname : name ∉ c.loops)
    (h : Rounds m body (c.startLoop name) n v d) (round : m.eval (.group [] body) d = .done w e)
    (hend : e.loops.head? ≠ some name) (hpermits : m.Permits (n + 1)) (hmore : n + 1 < m.rounds) :
    m.eval (.loop name body) c = .done w e := by
  obtain ⟨more, hmore⟩ : ∃ more, m.rounds = n + (more + 2) := ⟨m.rounds - n - 2, by omega⟩
  have hnodup := nodup_startLoop hc hname
  have hd : d.loops.head? = some name := by rw [h.loops_eq hnodup]; rfl
  have hbody : m.bracket m.evalTerm [] body d = .done w e := round
  rw [eval_loop hname, hmore, iterate_rounds hnodup rfl h hpermits.pred, iterate, if_pos hd,
    exhausted?_of_permits hpermits]
  simp only [hbody]
  rw [iterate, if_neg hend]
  rfl

theorem eval_loop_of_limit {limit : UInt64} (hc : c.loops.Nodup) (hname : name ∉ c.loops)
    (hlimit : m.maxIterations = some limit)
    (h : Rounds m body (c.startLoop name) limit.toNat v d) :
    m.eval (.loop name body) c = .failed (.iterationLimit name limit) { d with loops := c.loops } := by
  have hnodup := nodup_startLoop hc hname
  have hloops : d.loops = name :: c.loops := h.loops_eq hnodup
  have hd : d.loops.head? = some name := by rw [hloops]; rfl
  have hpermits : m.Permits limit.toNat := by
    intro l hl
    cases hlimit.symm.trans hl
    exact Nat.le_refl _
  have hrounds : m.rounds = limit.toNat + 1 := by simp only [rounds, hlimit]
  have hexhausted : m.exhausted? (UInt64.ofNat limit.toNat) = some limit := by
    simp [exhausted?, hlimit]
  have hkeep : d.keepLoops c.loops.length = { d with loops := c.loops } := by
    simp [Context.keepLoops, hloops]
  rw [eval_loop hname, hrounds, iterate_rounds hnodup rfl h hpermits, iterate, if_pos hd, hexhausted]
  simp only [Outcome.onFailure, hkeep]

/-- A limit leaves room for the last round and for seeing that it was the last one. -/
theorem Permits.lt_rounds (h : m.Permits (n + 1)) (hpatience : n + 1 < m.patience) :
    n + 1 < m.rounds := by
  unfold rounds
  cases hl : m.maxIterations with
  | none => exact hpatience
  | some limit => exact Nat.lt_succ_of_le (h limit hl)

theorem gives_of_ended (hc : c.loops.Nodup) (hname : name ∉ c.loops)
    (h : Rounds m body (c.startLoop name) n v d) (round : m.eval (.group [] body) d = .done w e)
    (hend : e.loops.head? ≠ some name) (hpermits : m.Permits (n + 1)) :
    m.Gives (fun m => m.eval (.loop name body) c) (.done w e) := by
  have henough : ∀ patience, max m.patience (n + 2) ≤ patience →
      ({ m with patience := patience } : Machine).eval (.loop name body) c = .done w e := by
    intro patience hle
    obtain ⟨hpatience, hrounds⟩ := Nat.max_le.mp hle
    have hpermits' : Permits { m with patience := patience } (n + 1) := hpermits
    exact eval_loop_of_ended hc hname (h.withPatience hpatience)
      (eval_withPatience hpatience round) hend hpermits (hpermits'.lt_rounds hrounds)
  refine gives_of_enough henough fun hsome => ?_
  obtain ⟨limit, hlimit⟩ := Option.ne_none_iff_exists'.mp hsome
  have hmore : n + 1 < m.rounds := by
    simp only [rounds, hlimit]
    exact Nat.lt_succ_of_le (hpermits limit hlimit)
  exact eval_loop_of_ended hc hname h round hend hpermits hmore

/-- The loops that a round leaves, cut at one that ran before it, do not begin with the loop. -/
theorem head?_of_broken (hc : c.loops.Nodup) (hname : name ∉ c.loops)
    (h : Rounds m body (c.startLoop name) n v d) {x : String}
    (hx : Broken m (bodyStart body d) x e.loops) : e.loops.head? ≠ some name := by
  have hsuffix : x :: e.loops <:+ d.loops := hx.suffix
  rw [h.loops_eq (nodup_startLoop hc hname)] at hsuffix
  have houter : e.loops <:+ c.loops := by
    rcases List.suffix_cons_iff.mp hsuffix with heq | hs
    · exact (List.cons.inj heq).2 ▸ List.suffix_refl _
    · exact (List.suffix_cons _ _).trans hs
  intro hhead
  exact hname (houter.subset (List.mem_of_mem_head? hhead))

end Machine

/-- A loop whose body never fails, begun where no loop runs twice.

It runs its body again and again, from where the time before left off, as long as no round breaks it
or a loop around it; the counter is the number of these rounds as long as there is a limit. If so
many rounds are the limit, this is the error, and the loops run that ran before the loop. The first
round in which a break ends the loop or one around it is the last one: its value is that of the
loop, and the loops around the outermost one that was broken run on, which are all that ran before
if no other loop was broken. A name that is running already is refused. -/
theorem loop_ends_when_broken (m : Machine) (name : String) (body : Group) (c : Context)
    (hc : c.loops.Nodup) :
    (name ∈ c.loops → m.eval (.loop name body) c = .failed (.loopAlreadyActive name) c) ∧
    (name ∉ c.loops → ∀ n v d, Rounds m body (c.startLoop name) n v d → m.Permits n →
      (Steps m ((Entry.loop name body).start c) (loopAt name body c.loops.length n v d) ∧
        d.loops = name :: c.loops ∧ (m.maxIterations ≠ none → (UInt64.ofNat n).toNat = n)) ∧
      (∀ limit, m.maxIterations = some limit → n = limit.toNat →
        m.eval (.loop name body) c =
          .failed (.iterationLimit name limit) { d with loops := c.loops }) ∧
      ∀ w e, m.eval (.group [] body) d = .done w e → m.Permits (n + 1) →
        (∃ x outer, Broken m (bodyStart body d) x outer) →
          m.Gives (fun m => m.eval (.loop name body) c) (.done w e) ∧
          (Steps m ((Entry.loop name body).start c) (loopAt name body c.loops.length (n + 1) w e) ∧
            m.step (loopAt name body c.loops.length (n + 1) w e) = some ⟨.value w, [], e⟩) ∧
          (∃ x, Broken m (bodyStart body d) x e.loops) ∧
          (∀ x outer, Broken m (bodyStart body d) x outer → e.loops <:+ outer) ∧
          ((∀ x outer, Broken m (bodyStart body d) x outer → x = name) → e.loops = c.loops)) := by
  refine ⟨fun hname => ?_, fun hname n v d h hpermits => ?_⟩
  · show m.loop m.evalTerm name body c = _
    rw [Machine.loop, if_pos hname]
  · have hnodup := Machine.nodup_startLoop hc hname
    have hloops : d.loops = name :: c.loops := h.loops_eq hnodup
    have hbegin : m.step ((Entry.loop name body).start c) =
        some (loopAt name body c.loops.length 0 .null (c.startLoop name)) := by
      show some (Machine.termStep [] c (.loop name body)) = _
      rw [Machine.termStep, if_neg hname]
      rfl
    have hsteps : Steps m ((Entry.loop name body).start c)
        (loopAt name body c.loops.length n v d) :=
      .cons hbegin (Machine.steps_rounds hnodup rfl h hpermits)
    refine ⟨⟨hsteps, hloops, Machine.toNat_ofNat_of_permits hpermits⟩, ?_, ?_⟩
    · rintro limit hlimit rfl
      exact Machine.eval_loop_of_limit hc hname hlimit h
    · rintro w e round hlast ⟨x, outer, hx⟩
      have hd : d.loops.Nodup := hloops ▸ hnodup
      rcases loops_cut hd round with ⟨-, hnone⟩ | ⟨⟨y, hy⟩, hcut⟩
      · exact absurd hx (hnone x outer)
      have hend := Machine.head?_of_broken hc hname h hy
      refine ⟨Machine.gives_of_ended hc hname h round hend hlast, ⟨?_, ?_⟩, ⟨y, hy⟩, hcut, ?_⟩
      · exact hsteps.trans (Machine.steps_round round (by rw [hloops]; rfl) hlast)
      · show some (m.againStep w name body (UInt64.ofNat (n + 1)) c.loops.length [] e) = _
        rw [Machine.againStep, if_neg hend]
      · intro honly
        have hsuffix : y :: e.loops <:+ d.loops := hy.suffix
        rw [honly y _ hy, hloops] at hsuffix
        rcases List.suffix_cons_iff.mp hsuffix with heq | hs
        · exact (List.cons.inj heq).2
        · exact absurd (hs.subset List.mem_cons_self) hname

/-- The loop `l` is broken in its only round, and a new loop `l` is begun and broken after that. The
loop around it runs on. With nothing in its body `l` comes to its limit. -/
theorem loop_broken_and_begun_again :
    let m : Machine := { maxIterations := some 2, patience := 0 }
    let c : Context := { Context.fresh with loops := ["o"] }
    let body : Group := [.brk "l" [], .op .comma, .loop "l" [.brk "l" []]]
    c.loops.Nodup ∧ "l" ∉ c.loops ∧
      ∃ w e, m.eval (.group [] body) (c.startLoop "l") = .done w e ∧
        (∃ x outer, Broken m (bodyStart body (c.startLoop "l")) x outer) ∧
        m.Gives (fun m => m.eval (.loop "l" body) c) (.done w e) ∧ e.loops = ["o"] ∧
        m.eval (.loop "l" []) c = .failed (.iterationLimit "l" 2) c := by
  intro m c body
  have hc : c.loops.Nodup := by decide
  have hname : "l" ∉ c.loops := by decide
  have hround : ∃ w e, m.eval (.group [] body) (c.startLoop "l") = .done w e ∧
      e.loops = ["o"] := ⟨_, _, rfl, rfl⟩
  obtain ⟨w, e, hround, hloops⟩ := hround
  have hstart : (c.startLoop "l").loops.Nodup := by decide
  have hbroken : ∃ x outer, Broken m (bodyStart body (c.startLoop "l")) x outer := by
    rcases loops_cut hstart hround with ⟨heq, -⟩ | ⟨⟨x, hx⟩, -⟩
    · rw [hloops] at heq
      exact absurd heq (by decide)
    · exact ⟨x, _, hx⟩
  have hlast : m.Permits 1 := by
    rintro limit ⟨⟩
    decide
  obtain ⟨-, hends⟩ := loop_ends_when_broken m "l" body c hc
  obtain ⟨-, -, hends⟩ := hends hname 0 .null _ .none (fun _ _ => Nat.zero_le _)
  obtain ⟨hgives, -⟩ := hends w e hround hlast hbroken
  have hempty : m.eval (.group [] []) (c.startLoop "l") = .done .null (c.startLoop "l") := rfl
  have hwhole := (unbroken_iff hstart hempty).mpr rfl
  have htwo : Rounds m [] (c.startLoop "l") 2 .null (c.startLoop "l") :=
    .next (.next .none hempty hwhole) hempty hwhole
  have hpermits : m.Permits 2 := by
    rintro limit ⟨⟩
    decide
  obtain ⟨-, hends⟩ := loop_ends_when_broken m "l" [] c hc
  obtain ⟨-, hlimit, -⟩ := hends hname 2 .null _ htwo hpermits
  exact ⟨hc, hname, w, e, hround, hbroken, hgives, hloops, hlimit 2 rfl rfl⟩

end Bracket
