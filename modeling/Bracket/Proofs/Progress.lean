import Bracket.Proofs.Positions

/-!
# Bracket.Proofs.Progress

Reading ends. A step either fails or moves the cursor forward (`position_lt_of_step`), and where no
unit begins it fails (`step_of_stuck`). `EndsAfter` counts the steps of the loop that reads a text:
there are at most as many as the text has characters, the one that fails included.
-/

namespace Bracket

namespace Text
namespace Cursor

open Reader

variable {c d next : Cursor}

theorem Leads.position_lt (h : Leads c d) (hless : d.rest.length < c.rest.length) :
    c.position < d.position := by
  obtain ⟨run, hrest, hposition⟩ := h
  cases run with
  | nil =>
    rw [hrest] at hless
    exact absurd hless (Nat.lt_irrefl _)
  | cons x run =>
    have hsize : 0 < byteLength (x :: run) := Nat.add_pos_left x.utf8Size_pos _
    omega

/-- Behind the blanks is neither a reserved word nor a character of a run. -/
structure Stuck (c : Cursor) : Prop where
  word : ∀ w : Word, ¬ w.letters <+: c.skipBlanks.rest
  digit : ∀ x ∈ c.skipBlanks.rest.head?, isDigit x = false
  ident : ∀ x ∈ c.skipBlanks.rest.head?, isIdent x = false

theorem unknownRun_skipBlanks (c : Cursor) : c.skipBlanks.unknownRun = c.unknownRun := by
  rw [unknownRun, unknownRun, skipBlanks_skipBlanks]

end Cursor
end Text

namespace Reader

open Text

namespace Parser

variable {p q : Parser}

/-! ## One step -/

theorem leads_expectOpening {after : Keyword} (h : p.expectOpening after = .ok q) :
    p.cursor.Leads q.cursor := by
  have hword := p.cursor.leads_reserved
  unfold expectOpening at h
  split at h
  · rename_i next hr
    rw [hr] at hword
    unfold openBracket at h
    cases hb : p.builder.openBracket p.cursor.skipBlanks.position with
    | error e => rw [hb] at h; cases h
    | ok b => rw [hb] at h; cases h; exact hword
  · cases h

theorem leads_resume {next : Cursor} {r : Reading} (h : r.resume next = some q) :
    next.Leads q.cursor := by
  cases r with
  | item b =>
    cases h
    exact .refl next
  | opening b =>
    replace h : (expectOpening ⟨next, b⟩ .ifTest).toOption = some q := h
    cases he : expectOpening ⟨next, b⟩ .ifTest with
    | error e => rw [he] at h; cases h
    | ok q' => rw [he] at h; cases h; exact leads_expectOpening he

theorem leads_step (h : p.step = .ok q) : p.cursor.Leads q.cursor := by
  have hstep := p.toOption_step
  rw [h] at hstep
  obtain ⟨⟨u, next⟩, hu, hfollow⟩ := Option.bind_eq_some_iff.mp hstep.symm
  obtain ⟨r, -, hresume⟩ := Option.bind_eq_some_iff.mp hfollow
  exact (Cursor.leads_lexeme? hu).trans (leads_resume hresume)

theorem position_lt_of_step (h : p.step = .ok q) : p.cursor.position < q.cursor.position :=
  (leads_step h).position_lt (left_step h)

theorem step_of_stuck (h : p.cursor.Stuck) :
    p.step = .error (.unknownOperator p.cursor.unknownRun.1 p.cursor.skipBlanks.position) := by
  have hword : p.cursor.reserved = (none, p.cursor.skipBlanks) :=
    Cursor.reserved_of_longest?_none (Word.longest?_eq_none_iff.mpr h.word)
  have hnumber : p.cursor.skipBlanks.number = (none, p.cursor.skipBlanks) := by
    rw [Cursor.number, Cursor.skipBlanks_skipBlanks]
    exact Cursor.popWhile_none_of_head h.digit
  have hident : p.cursor.skipBlanks.ident = (none, p.cursor.skipBlanks) := by
    rw [Cursor.ident, Cursor.skipBlanks_skipBlanks]
    exact Cursor.popWhile_none_of_head h.ident
  rw [step, hword]
  simp only [hnumber, hident, Cursor.unknownRun_skipBlanks]

/-! ## The loop -/

/-- The loop makes so many steps and has this result. -/
inductive EndsAfter : Parser → Nat → Except ParseError Group → Prop
  | finish {p : Parser} (blank : p.cursor.isAtEnd.1 = true) : EndsAfter p 0 p.builder.finish
  | fail {p : Parser} {e : ParseError} (more : p.cursor.isAtEnd.1 = false)
      (failed : p.step = .error e) : EndsAfter p 1 (.error e)
  | step {p q : Parser} {n : Nat} {result : Except ParseError Group}
      (more : p.cursor.isAtEnd.1 = false) (next : p.step = .ok q) (rest : EndsAfter q n result) :
      EndsAfter p (n + 1) result

variable {n m : Nat} {result result' : Except ParseError Group}

theorem left_pos (more : p.cursor.isAtEnd.1 = false) : 0 < p.left := by
  have hpos := List.length_pos_iff.mpr (List.isEmpty_eq_false_iff.mp more)
  exact Nat.lt_of_lt_of_le hpos p.cursor.rest_skipBlanks_le

theorem EndsAfter.le_left (h : EndsAfter p n result) : n ≤ p.left := by
  induction h with
  | finish => exact Nat.zero_le _
  | fail more => exact left_pos more
  | step _ next _ ih => exact Nat.lt_of_le_of_lt ih (left_step next)

theorem EndsAfter.unique (h : EndsAfter p n result) (h' : EndsAfter p m result') :
    n = m ∧ result = result' := by
  induction h generalizing m result' with
  | finish blank =>
    cases h' with
    | finish => exact ⟨rfl, rfl⟩
    | fail more => rw [more] at blank; cases blank
    | step more => rw [more] at blank; cases blank
  | fail more failed =>
    cases h' with
    | finish blank => rw [more] at blank; cases blank
    | fail _ failed' => rw [failed] at failed'; cases failed'; exact ⟨rfl, rfl⟩
    | step _ next => rw [failed] at next; cases next
  | step more next _ ih =>
    cases h' with
    | finish blank => rw [more] at blank; cases blank
    | fail _ failed => rw [next] at failed; cases failed
    | step _ next' rest =>
      rw [next] at next'
      cases next'
      obtain ⟨rfl, rfl⟩ := ih rest
      exact ⟨rfl, rfl⟩

theorem endsAfter_run (p : Parser) : ∃ n, EndsAfter p n p.run := by
  induction p using Parser.run.induct with
  | case1 p blank => exact ⟨0, run_of_isAtEnd blank ▸ .finish blank⟩
  | case2 p more e failed =>
    have more := Bool.eq_false_iff.mpr more
    refine ⟨1, ?_⟩
    rw [run_eq_bind more, failed]
    exact .fail more failed
  | case3 p more q next ih =>
    have more := Bool.eq_false_iff.mpr more
    obtain ⟨n, hn⟩ := ih
    refine ⟨n + 1, ?_⟩
    rw [run_eq_bind more, next]
    exact .step more next hn

/-- A step that succeeds has moved the cursor forward in the text, and one that finds no unit fails.
So the reading of a text ends, in one way only, after at most as many steps as the text has
characters. -/
theorem reading_advances (source : String) :
    (∀ p q : Parser, p.step = .ok q →
      p.cursor.Leads q.cursor ∧ p.cursor.position < q.cursor.position) ∧
    (∀ p : Parser, p.cursor.Stuck → p.step =
      .error (.unknownOperator p.cursor.unknownRun.1 p.cursor.skipBlanks.position)) ∧
    ∃ n ≤ source.length, EndsAfter (start source) n (parse source) ∧
      ∀ m result, EndsAfter (start source) m result → m = n ∧ result = parse source := by
  refine ⟨fun p q h => ⟨leads_step h, position_lt_of_step h⟩, fun p h => step_of_stuck h, ?_⟩
  obtain ⟨n, hn⟩ := endsAfter_run (start source)
  have hle : n ≤ source.toList.length := hn.le_left
  rw [String.length_toList] at hle
  exact ⟨n, hle, hn, fun m result h => h.unique hn⟩

/-- A step that reads three units, two that read one, and one at a character that begins none. -/
theorem reading_advances_until_stuck :
    ∃ p q : Parser, (start "@f(x)é").step = .ok p ∧ 0 < p.cursor.position ∧
      EndsAfter p 3 (.error (.unknownOperator "é" 5)) ∧ q.cursor.Stuck ∧
      q.step = .error (.unknownOperator "é" 5) ∧
      parse "@f(x)é" = .error (.unknownOperator "é" 5) := by
  obtain ⟨hadvances, hstuck, n, -, -, hunique⟩ := reading_advances "@f(x)é"
  let p : Parser := ⟨⟨['x', ')', 'é'], 3⟩, [], [[.pending (.call "f" none)]]⟩
  let q : Parser := ⟨⟨['é'], 5⟩, [.pending (.call "f" (some [.ident "x"]))], []⟩
  have hp : (start "@f(x)é").step = .ok p := rfl
  have hq : q.cursor.Stuck :=
    ⟨Word.longest?_eq_none_iff.mp rfl, by rintro x ⟨⟩; rfl, by rintro x ⟨⟩; rfl⟩
  have hfail : q.step = .error (.unknownOperator "é" 5) := hstuck q hq
  have hrest : EndsAfter p 3 (.error (.unknownOperator "é" 5)) :=
    .step rfl rfl (.step rfl rfl (.fail rfl hfail))
  have hparse := (hunique 4 _ (.step rfl hp hrest)).2.symm
  exact ⟨p, q, hp, (hadvances _ p hp).2, hrest, hq, hfail, hparse⟩

end Parser
end Reader
end Bracket
