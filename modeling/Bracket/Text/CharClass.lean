/-!
# Bracket.Text.CharClass

The three classes of characters that lexical units are made of. They overlap: a decimal digit
belongs to digit runs and to identifier runs.
-/

namespace Bracket
namespace Text

/-- Spaces and newlines separate units. Tabs and other blanks do not. -/
def isBlank (c : Char) : Bool := c == ' ' || c == '\n'

/-- The point may stand anywhere in a digit run; whether the run is a number is decided later. -/
def isDigit (c : Char) : Bool := c.isDigit || c == '.'

/-- ASCII letters, decimal digits and the underscore. -/
def isIdent (c : Char) : Bool := c.isAlphanum || c == '_'

def isUnknown (c : Char) : Bool := !isBlank c && !isDigit c && !isIdent c

theorem not_isBlank_of_isDigit {c : Char} (h : isDigit c = true) : isBlank c = false := by
  cases hb : isBlank c with
  | false => rfl
  | true =>
    simp only [isBlank, Bool.or_eq_true, beq_iff_eq] at hb
    rcases hb with rfl | rfl <;> revert h <;> decide

theorem not_isBlank_of_isIdent {c : Char} (h : isIdent c = true) : isBlank c = false := by
  cases hb : isBlank c with
  | false => rfl
  | true =>
    simp only [isBlank, Bool.or_eq_true, beq_iff_eq] at hb
    rcases hb with rfl | rfl <;> revert h <;> decide

end Text
end Bracket
