import Bracket.CommandLine
import Bracket.Proofs.Effects
import Bracket.Proofs.Frames
import Bracket.Proofs.Lexemes
import Bracket.Proofs.Limits
import Bracket.Proofs.Loops

/-!
# Bracket.Proofs.Sessions

A session answers its lines one after another in one context (`session_folds_run`).

`pieces` says what the lines of an input are, `Answered` how one of them is answered, and `Course`
puts the answers in order. Between two lines nothing is left over but the global frame (`Resting`),
so all that a failing line can hand on are the global assignments it has completed. `Logged` reads
them off the steps of its run.
-/

namespace Bracket

/-! ## Completed assignments -/

/-- The assignment to the global frame that the next step completes, if it is one. -/
def Config.globalWrite? (s : Config) : Option (String × Value) :=
  match s.task, s.waiting with
  | .value v, .target name _ :: _ =>
    if (Scopes.write? name v s.context.scopes.locals).isNone then some (name, v) else none
  | _, _ => none

def Frame.setAll (f : Frame) (ws : List (String × Value)) : Frame :=
  ws.foldl (fun f w => f.set w.1 w.2) f

/-- The steps from one configuration to another complete these global assignments, in order. -/
inductive Logged (m : Machine) : Config → List (String × Value) → Config → Prop
  | refl {s : Config} : Logged m s [] s
  | cons {s s' s'' : Config} {ws : List (String × Value)} (step : m.step s = some s')
      (rest : Logged m s' ws s'') : Logged m s (s.globalWrite?.toList ++ ws) s''

/-- The global assignments that running a text completes, however it ends. -/
def Completed (m : Machine) (source : String) (c : Context) (ws : List (String × Value)) : Prop :=
  match Reader.parse source with
  | .error _ => ws = []
  | .ok g => ∃ s, Logged m ((Entry.program g).start c) ws s ∧ m.step s = none

namespace Machine

variable {m : Machine} {s s' : Config}

theorem step_global (h : m.step s = some s') :
    s'.context.scopes.global = s.context.scopes.global.setAll s.globalWrite?.toList := by
  cases hw : s.globalWrite? with
  | none =>
    cases step_effect h with
    | calm hc => exact hc.global
    | @assign v name p k c =>
      unfold Config.globalWrite? at hw
      simp only at hw
      split at hw
      · cases hw
      · rename_i hlocal
        obtain ⟨locals, hlocals⟩ := Option.ne_none_iff_exists'.mp
          fun hnone => hlocal (Option.isNone_iff_eq_none.mpr hnone)
        simp only [Context.assign, Scopes.assign, hlocals]
        rfl
    | cut => rfl
    | @unwind e w k c => cases w <;> rfl
  | some w =>
    unfold Config.globalWrite? at hw
    split at hw
    · rename_i v name p k htask hwaiting
      split at hw
      · rename_i hglobal
        cases hw
        obtain ⟨task, waiting, c⟩ := s
        cases htask
        cases hwaiting
        cases h
        have hnone := Option.isNone_iff_eq_none.mp hglobal
        simp only at hnone
        show (Scopes.assign c.scopes name v).global = _
        rw [Scopes.assign, hnone]
        rfl
      · cases hw
    · cases hw

theorem logged_of_steps (h : Steps m s s') : ∃ ws, Logged m s ws s' := by
  induction h with
  | refl => exact ⟨[], .refl⟩
  | cons hs _ ih =>
    obtain ⟨ws, hws⟩ := ih
    exact ⟨_, .cons hs hws⟩

theorem logged_global {ws : List (String × Value)} (h : Logged m s ws s') :
    s'.context.scopes.global = s.context.scopes.global.setAll ws := by
  induction h with
  | refl => rfl
  | cons step _ ih =>
    rw [ih, step_global step, Frame.setAll, Frame.setAll, Frame.setAll, List.foldl_append]

end Machine

/-! ## Between two lines -/

/-- No bracket is open, no loop runs, and nothing is printed that was not taken away. -/
structure Context.Resting (c : Context) : Prop where
  locals : c.scopes.locals = []
  loops : c.loops = []
  depth : c.depth = 0
  transcript : c.transcript = Transcript.empty

theorem resting_fresh : Context.fresh.Resting := ⟨rfl, rfl, rfl, rfl⟩

theorem Context.Resting.eq {c : Context} (h : c.Resting) :
    c = ⟨⟨[], c.scopes.global⟩, [], 0, Transcript.empty⟩ := by
  obtain ⟨⟨locals, global⟩, loops, depth, transcript⟩ := c
  obtain ⟨rfl, rfl, rfl, rfl⟩ := h
  rfl

namespace Machine

variable {m : Machine} {source : String} {c d : Context}

/-- However a run ends, it leaves the context as it was but for the global frame and for what it has
printed. -/
theorem run_resting (hc : c.Resting) (hd : (m.run source c).state? = some d) :
    d.drain.2.Resting := by
  have hframes := run_sameFrames hd
  have hloops : d.loops = [] := by
    rcases run_state hd with rfl | ⟨g, hg⟩
    · exact hc.loops
    · have hs := eval_suffix (by rw [hc.loops]; exact List.nodup_nil) hg
      rwa [hc.loops, List.suffix_nil] at hs
  have hlocals := hframes.locals
  rw [hc.locals, List.map_nil, List.map_eq_nil_iff] at hlocals
  exact ⟨hlocals, hloops, hframes.depth.trans hc.depth, rfl⟩

theorem run_completed (hc : c.Resting) (hd : (m.run source c).state? = some d) :
    ∃ ws, Completed m source c ws ∧
      d.drain.2 = { c with scopes := ⟨c.scopes.locals, c.scopes.global.setAll ws⟩ } := by
  have hrest : d.drain.2 = { c with scopes := ⟨c.scopes.locals, d.scopes.global⟩ } := by
    rw [(run_resting hc hd).eq, hc.locals, hc.loops, hc.depth, hc.transcript]
    rfl
  unfold Completed
  cases hg : Reader.parse source with
  | error e =>
    rw [run, hg] at hd
    cases hd
    exact ⟨[], rfl, hrest⟩
  | ok g =>
    have hprogram : (m.eval (.program g) c).state? = some d := by
      rw [run_of_parse hg] at hd
      cases he : m.eval (.program g) c with
      | done v e => rw [he] at hd; exact hd
      | failed err e => rw [he] at hd; exact hd
      | unfinished => rw [he] at hd; cases hd
    obtain ⟨s, hs, hlast, rfl⟩ := eval_last hprogram
    obtain ⟨ws, hws⟩ := logged_of_steps hs
    refine ⟨ws, ⟨s, hws, hlast⟩, ?_⟩
    have hglobal : s.context.scopes.global = c.scopes.global.setAll ws := logged_global hws
    rw [← hglobal]
    exact hrest

end Machine

/-! ## Lines and answers -/

namespace Session

/-- The lines among the parts between newlines. All but the last part were ended by a newline, and
lose a carriage return that stands before it; the last part is a line unless it is empty. -/
def ended (parts : List (List UInt8)) : List (List UInt8) :=
  parts.dropLast.map dropReturn ++ parts.getLast?.toList.filter (· ≠ [])

/-- The lines of an input. -/
def pieces (input : List UInt8) : List (List UInt8) := ended (input.splitOn newline)

def text? (line : List UInt8) : Option String := String.fromUTF8? ⟨line.toArray⟩

/-- What a line prints while it runs, and the record that is written behind that. -/
structure Answer where
  printed : String
  record : String

/-- How a line is answered in a context, and in which context the next line is. -/
inductive Answered (m : Machine) : Context → List UInt8 → Answer → Context → Prop
  | value {c d : Context} {line : List UInt8} {source : String} {v : Value}
      (text : text? line = some source) (run : m.run source c = .done v d) :
      Answered m c line ⟨d.transcript.text, "[ " ++ source ++ " ] => " ++ v.text ++ "\n"⟩ d.drain.2
  | error {c d : Context} {line : List UInt8} {source : String} {e : Failure}
      (text : text? line = some source) (run : m.run source c = .failed e d) :
      Answered m c line ⟨d.transcript.text, "[ " ++ source ++ " ] => " ++ e.message ++ "\n"⟩
        d.drain.2
  | unreadable {c : Context} {line : List UInt8} (text : text? line = none) :
      Answered m c line ⟨"", "[ <unreadable> ] => stream did not contain valid UTF-8\n"⟩ c

/-- The lines are answered in order, each in the context that the one before it left. -/
inductive Course (m : Machine) : Context → List (List UInt8) → List Answer → Context → Prop
  | nil {c : Context} : Course m c [] [] c
  | cons {c d e : Context} {line : List UInt8} {lines : List (List UInt8)} {a : Answer}
      {as : List Answer} (head : Answered m c line a d) (tail : Course m d lines as e) :
      Course m c (line :: lines) (a :: as) e

def output (as : List Answer) : String := as.foldr (fun a text => a.printed ++ a.record ++ text) ""

theorem ended_cons {part : List UInt8} {parts : List (List UInt8)} (h : parts ≠ []) :
    ended (part :: parts) = dropReturn part :: ended parts := by
  obtain ⟨next, parts, rfl⟩ := List.exists_cons_of_ne_nil h
  rfl

theorem linesFrom_eq (input : List UInt8) : ∀ line,
    linesFrom input line = ended (input.splitOnPPrepend (· == newline) line) := by
  induction input with
  | nil =>
    intro line
    cases line with
    | nil => rfl
    | cons b line =>
      have hne : (b :: line).reverse ≠ [] := by simp
      simp [linesFrom, ended]
  | cons b input ih =>
    intro line
    rw [linesFrom]
    split
    · rename_i hb
      have hsplit : (b :: input).splitOnPPrepend (· == newline) line =
          line.reverse :: input.splitOnP (· == newline) :=
        List.splitOnPPrepend_cons_pos (beq_iff_eq.mpr hb)
      rw [hsplit, ended_cons (List.splitOnP_ne_nil _ _), ih, List.splitOnPPrepend_nil_right]
    · rename_i hb
      have hsplit : (b :: input).splitOnPPrepend (· == newline) line =
          input.splitOnPPrepend (· == newline) (b :: line) :=
        List.splitOnPPrepend_cons_neg (beq_false_of_ne hb)
      rw [hsplit]
      exact ih (b :: line)

theorem lines_eq_pieces (input : ByteArray) :
    lines input = (pieces input.toList).map fun line => ⟨line.toArray⟩ := by
  rw [lines, linesFrom_eq]
  rfl

/-! ## The session -/

variable {m : Machine} {c d : Context} {line : List UInt8} {lines : List (List UInt8)}

theorem Answered.resting {a : Answer} (h : Answered m c line a d) (hc : c.Resting) :
    d.Resting := by
  cases h with
  | value text run => exact Machine.run_resting hc (by rw [run]; rfl)
  | error text run => exact Machine.run_resting hc (by rw [run]; rfl)
  | unreadable text => exact hc

theorem Course.resting {as : List Answer} (h : Course m c lines as d) (hc : c.Resting) :
    d.Resting := by
  induction h with
  | nil => exact hc
  | cons head _ ih => exact ih (head.resting hc)

/-- A line whose run ends is answered. -/
theorem answered_of_ends
    (h : ∀ source, text? line = some source → m.run source c ≠ .unfinished) :
    ∃ a d, Answered m c line a d ∧
      answer m ⟨line.toArray⟩ c = some (a.printed ++ a.record, d) := by
  unfold answer
  cases ht : text? line with
  | none =>
    have htext : String.fromUTF8? ⟨line.toArray⟩ = none := ht
    rw [htext]
    exact ⟨_, _, .unreadable ht, rfl⟩
  | some source =>
    have htext : String.fromUTF8? ⟨line.toArray⟩ = some source := ht
    rw [htext]
    simp only
    cases hr : m.run source c with
    | done v d => exact ⟨_, _, .value ht hr, rfl⟩
    | failed e d => exact ⟨_, _, .error ht hr, rfl⟩
    | unfinished => exact absurd hr (h source ht)

/-- Every run that is made while the lines are answered from a context ends. -/
def RunsEnd (m : Machine) (c : Context) (lines : List (List UInt8)) : Prop :=
  ∀ before line after as d source, lines = before ++ line :: after → Course m c before as d →
    text? line = some source → m.run source d ≠ .unfinished

theorem course_of_ends (lines : List (List UInt8)) : ∀ c, RunsEnd m c lines →
    ∃ as d, Course m c lines as d ∧
      answers m c (lines.map fun line => ⟨line.toArray⟩) = some (output as) := by
  induction lines with
  | nil => exact fun c _ => ⟨[], c, .nil, rfl⟩
  | cons line lines ih =>
    intro c h
    obtain ⟨a, d, hline, hanswer⟩ := answered_of_ends (h [] line lines [] c · rfl .nil)
    have hrest : RunsEnd m d lines := fun before next after as e source heq hcourse =>
      h (line :: before) next after (a :: as) e source (congrArg (line :: ·) heq)
        (.cons hline hcourse)
    obtain ⟨as, e, hcourse, hanswers⟩ := ih d hrest
    refine ⟨a :: as, e, .cons hline hcourse, ?_⟩
    rw [List.map_cons, answers, hanswer]
    simp only [hanswers]
    rfl

end Session

open Session CommandLine

/-- A session whose runs all end answers every line of its input, in order and in one context: what
the line prints, then one record, with the value or the error of running the line, or with that it
cannot be read, which leaves the context alone. Where a line begins no bracket is open, no loop runs
and nothing is printed, and after a line that fails the context is the same but for the global
assignments that its run has completed. -/
theorem session_folds_run (m : Machine) (input : ByteArray)
    (hends : RunsEnd m Context.fresh (pieces input.toList)) :
    (∃ as d, Course m Context.fresh (pieces input.toList) as d ∧
      sessionReport m input = some ⟨0, output as, ""⟩) ∧
    ∀ before line after as c, pieces input.toList = before ++ line :: after →
      Course m Context.fresh before as c → c.Resting ∧
        ∀ source e d, text? line = some source → m.run source c = .failed e d →
          ∃ ws, Completed m source c ws ∧
            d.drain.2 = { c with scopes := ⟨c.scopes.locals, c.scopes.global.setAll ws⟩ } := by
  refine ⟨?_, fun before line after as c _ hcourse => ?_⟩
  · obtain ⟨as, d, hcourse, hanswers⟩ := course_of_ends _ _ hends
    refine ⟨as, d, hcourse, ?_⟩
    rw [sessionReport, lines_eq_pieces, hanswers]
    rfl
  · have hc := hcourse.resting resting_fresh
    exact ⟨hc, fun source e d _ hrun => Machine.run_completed hc (by rw [hrun]; rfl)⟩

theorem parse_assign_and_call :
    Reader.parse "x=null,@f()" =
      .ok [.ident "x", .op .assign, .literal none, .op .comma, .call "f" none] := by
  rw [Reader.parse, Reader.Parser.run_eq_bind rfl]
  refine (Reader.Parser.run_eq_bind rfl).trans ?_
  refine (Reader.Parser.run_eq_bind rfl).trans ?_
  refine (Reader.Parser.run_eq_bind rfl).trans ?_
  refine (Reader.Parser.run_eq_bind rfl).trans ?_
  exact (Reader.Parser.run_eq_bind rfl).trans (Reader.Parser.run_of_isAtEnd rfl)

theorem run_unopened (m : Machine) (c : Context) :
    m.run ")" c = .failed (.parse (.unopenedBracket 0)) c := by
  have hparse : Reader.parse ")" = .error (.unopenedBracket 0) := by
    rw [Reader.parse]
    exact Reader.Parser.run_eq_bind rfl
  rw [Machine.run, hparse]

/-- A line that cannot be read, one that fails behind an assignment, and one that is no program. -/
theorem session_after_failures :
    let m : Machine := { patience := 1 }
    let input : ByteArray :=
      ⟨#[255, 10, 120, 61, 110, 117, 108, 108, 44, 64, 102, 40, 41, 13, 10, 41]⟩
    let assigned : Context := ⟨⟨[], [("x", .null)]⟩, [], 0, Transcript.empty⟩
    RunsEnd m Context.fresh (pieces input.toList) ∧
    (∃ as d, Course m Context.fresh (pieces input.toList) as d ∧ as.length = 3 ∧
      sessionReport m input = some ⟨0, output as, ""⟩) ∧
    ∃ ws, Completed m "x=null,@f()" Context.fresh ws ∧
      assigned = { Context.fresh with scopes := ⟨[], Frame.setAll [] ws⟩ } := by
  intro m input assigned
  let first : List UInt8 := [255]
  let second : List UInt8 := [120, 61, 110, 117, 108, 108, 44, 64, 102, 40, 41]
  have hpieces : pieces input.toList = [first, second, [41]] := by
    have hlist : input.toList =
        [255, 10, 120, 61, 110, 117, 108, 108, 44, 64, 102, 40, 41, 13, 10, 41] := by
      simp [input, ByteArray.toList, ByteArray.toList.loop, ByteArray.size, ByteArray.get!]
    rw [hlist]
    decide
  have hfirst : text? first = none := by decide
  have hsecond : text? second = some "x=null,@f()" := by decide
  have hthird : text? [41] = some ")" := by decide
  have hrun : m.run "x=null,@f()" Context.fresh =
      .failed (.runtime (.notAFunction "f")) assigned := by
    rw [Machine.run, parse_assign_and_call]
    rfl
  have hends : RunsEnd m Context.fresh (pieces input.toList) := by
    rw [hpieces]
    intro before line after as c source heq hcourse htext
    rcases before with _ | ⟨one, _ | ⟨two, _ | ⟨three, before⟩⟩⟩
    · cases heq
      cases hfirst.symm.trans htext
    · cases heq
      cases hsecond.symm.trans htext
      obtain _ | ⟨hanswered, htail⟩ := hcourse
      cases htail
      cases hanswered with
      | value text run => cases hfirst.symm.trans text
      | error text run => cases hfirst.symm.trans text
      | unreadable text =>
        rw [hrun]
        rintro ⟨⟩
    · cases heq
      cases hthird.symm.trans htext
      rw [run_unopened]
      rintro ⟨⟩
    · cases before <;> cases heq
  obtain ⟨⟨as, d, hcourse, hreport⟩, hfails⟩ := session_folds_run m input hends
  have hlength : as.length = 3 := by
    rw [hpieces] at hcourse
    obtain _ | ⟨-, hcourse⟩ := hcourse
    obtain _ | ⟨-, hcourse⟩ := hcourse
    obtain _ | ⟨-, hcourse⟩ := hcourse
    cases hcourse
    rfl
  obtain ⟨-, hfail⟩ := hfails [first] second [[41]] _ _ hpieces (.cons (.unreadable hfirst) .nil)
  obtain ⟨ws, hcompleted, hassigned⟩ := hfail _ _ _ hsecond hrun
  exact ⟨hends, ⟨as, d, hcourse, hlength, hreport⟩, ws, hcompleted, hassigned⟩

end Bracket
