import Bracket.Reader.Parse

/-!
# Bracket.Reader.Program

Reading a whole text. A step that succeeds leaves less to read than there was before it, so
reading takes at most as many steps as the text has characters.
-/

namespace Bracket
namespace Reader

open Text

namespace Parser

def left (p : Parser) : Nat := p.cursor.rest.length

/-! ## Every step leaves less -/

theorem left_openBracket {p q : Parser} {position : Nat} (h : p.openBracket position = .ok q) :
    q.left = p.left := by
  unfold openBracket at h
  cases hb : p.builder.openBracket position with
  | error e => rw [hb] at h; cases h
  | ok b => rw [hb] at h; cases h; rfl

theorem left_closeBracket {p q : Parser} {position : Nat} (h : p.closeBracket position = .ok q) :
    q.left = p.left := by
  unfold closeBracket at h
  cases hb : p.builder.closeBracket position with
  | error e => rw [hb] at h; cases h
  | ok b => rw [hb] at h; cases h; rfl

theorem left_expectOpening {p q : Parser} {after : Keyword} (h : p.expectOpening after = .ok q) :
    q.left ≤ p.left := by
  unfold expectOpening at h
  split at h
  · rename_i next hr
    rw [left_openBracket h]
    have hl := p.cursor.rest_reserved_le
    rw [hr] at hl
    exact hl
  · cases h

theorem left_expectName {p q : Parser} {after : Keyword} {name : String}
    (h : p.expectName after = .ok (name, q)) : q.left ≤ p.left := by
  unfold expectName at h
  split at h
  · rename_i run next hr
    cases h
    have hl := p.cursor.rest_ident_le
    rw [hr] at hl
    exact hl
  · cases h

theorem left_branch {p q : Parser} {keyword : Keyword} {slot : Construct.Slot} {position : Nat}
    (h : p.branch keyword slot position = .ok q) : q.left ≤ p.left := by
  unfold branch at h
  split at h
  · have hl := left_expectOpening h
    exact hl
  · cases h

theorem left_value {p q : Parser} {position : Nat} (h : p.value position = .ok q) :
    q.left ≤ p.left := by
  unfold value at h
  split at h
  · have hl := left_expectOpening h
    exact hl
  · cases h

theorem left_loop {p q : Parser} (h : p.loop = .ok q) : q.left ≤ p.left := by
  unfold loop at h
  split at h
  · cases h
  · rename_i hn
    have hl := left_expectOpening h
    have hm := left_expectName hn
    exact Nat.le_trans hl hm

theorem left_brk {p q : Parser} (h : p.brk = .ok q) : q.left ≤ p.left := by
  unfold brk at h
  split at h
  · cases h
  · rename_i hn
    cases h
    have hl := left_expectName hn
    exact hl

theorem left_call {p q : Parser} (h : p.call = .ok q) : q.left ≤ p.left := by
  unfold call at h
  split at h
  · cases h
  · rename_i hn
    have hl := left_expectOpening h
    have hm := left_expectName hn
    exact Nat.le_trans hl hm

theorem left_closure {p q : Parser} (h : p.closure = .ok q) : q.left ≤ p.left := by
  unfold closure at h
  simp only at h
  split at h
  · rename_i next hr
    have hl := p.cursor.ident.2.rest_reserved_le
    rw [hr] at hl
    exact Nat.le_trans (left_expectOpening h) (Nat.le_trans hl p.cursor.rest_ident_le)
  · cases h

theorem left_charLiteral {p q : Parser} {position : Nat} (h : p.charLiteral position = .ok q) :
    q.left ≤ p.left := by
  unfold charLiteral at h
  split at h
  · rename_i code next hc
    cases h
    have hl := p.cursor.rest_charLiteral_le position
    rw [hc] at hl
    exact hl
  · cases h

theorem left_word {p q : Parser} {position : Nat} {w : Word} (h : p.word position w = .ok q) :
    q.left ≤ p.left := by
  cases w with
  | op o => cases h; exact Nat.le_refl _
  | keyword k =>
    cases k with
    | null => cases h; exact Nat.le_refl _
    | quote => exact left_charLiteral h
    | opening => exact Nat.le_of_eq (left_openBracket h)
    | closing => exact Nat.le_of_eq (left_closeBracket h)
    | ifTest =>
      have hl := left_expectOpening h
      exact hl
    | thenBranch => exact left_branch h
    | elseBranch => exact left_branch h
    | loop => exact left_loop h
    | brk => exact left_brk h
    | withValue => exact left_value h
    | pipe => exact left_closure h
    | call => exact left_call h

theorem left_step {p q : Parser} (h : p.step = .ok q) : q.left < p.left := by
  unfold step at h
  simp only at h
  have hr := p.cursor.rest_reserved_le
  split at h
  · rename_i w next hw
    have hl : next.rest.length < p.cursor.rest.length := by
      have := Cursor.rest_reserved_lt (show p.cursor.reserved.1 = some w by rw [hw])
      rwa [hw] at this
    exact Nat.lt_of_le_of_lt (left_word h) hl
  · rename_i c hw
    rw [hw] at hr
    have hn := c.rest_number_le
    split at h
    · rename_i run next hm
      have hl : next.rest.length < c.rest.length := by
        have := Cursor.rest_number_lt (show c.number.1 = some run by rw [hm])
        rwa [hm] at this
      split at h
      · cases h
        exact Nat.lt_of_lt_of_le hl hr
      · cases h
    · rename_i d hm
      rw [hm] at hn
      split at h
      · rename_i name next hi
        have hl : next.rest.length < d.rest.length := by
          have := Cursor.rest_ident_lt (show d.ident.1 = some name by rw [hi])
          rwa [hi] at this
        cases h
        exact Nat.lt_of_lt_of_le hl (Nat.le_trans hn hr)
      · cases h

/-! ## The whole text -/

/-- Steps until only blanks are left. -/
def run (p : Parser) : Except ParseError Group :=
  if p.cursor.isAtEnd.1 then p.builder.finish
  else
    match _h : p.step with
    | .error e => .error e
    | .ok q => q.run
termination_by p.left
decreasing_by exact left_step _h

end Parser

def parse (source : String) : Except ParseError Group := (Parser.start source).run

end Reader
end Bracket
