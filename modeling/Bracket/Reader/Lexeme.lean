import Bracket.Reader.ParseError
import Bracket.Text.Cursor

/-!
# Bracket.Reader.Lexeme

Reading one unit at a cursor. Each reading skips blanks first; one that finds nothing leaves the
cursor where the blanks end. The reader of a program says which kind of unit it wants next, so
there is no list of tokens between a text and its tree.
-/

namespace Bracket
namespace Text
namespace Cursor

open Reader

def reserved (c : Cursor) : Option Word × Cursor :=
  match Word.longest? c.skipBlanks.rest with
  | some word => (some word, c.skipBlanks.advance word.letters.length)
  | none => (none, c.skipBlanks)

/-- A digit run, which need not be a number. -/
def number (c : Cursor) : Option String × Cursor := c.skipBlanks.popWhile isDigit

def ident (c : Cursor) : Option String × Cursor := c.skipBlanks.popWhile isIdent

/-- The first of the one or two UTF-16 code units of a character. -/
def leadingUnit (c : Char) : Nat :=
  if c.toNat < 0x10000 then c.toNat else 0xD800 + (c.toNat - 0x10000) / 0x400

def isNotQuote (c : Char) : Bool := c != '\''

/-- The rest of a character literal whose quote at `start` has been read: a run that is not empty
and its closing quote. Its value is the first code unit of its first character. -/
def charLiteral (c : Cursor) (start : Nat) : Except ParseError Float × Cursor :=
  match c.rest.takeWhile isNotQuote, (c.skipWhile isNotQuote).rest with
  | first :: _, _ :: _ => (.ok (Float.ofNat (leadingUnit first)), (c.skipWhile isNotQuote).advance 1)
  | _, _ => (.error (.unclosedLiteral start), c.skipWhile isNotQuote)

/-- The run of characters of no class, or else the one next character. -/
def unknownRun (c : Cursor) : String × Cursor :=
  match c.skipBlanks.popWhile isUnknown with
  | (some run, next) => (run, next)
  | (none, next) => (String.ofList (next.rest.take 1), next.advance 1)

/-! ## What is left -/

theorem rest_reserved_le (c : Cursor) : c.reserved.2.rest.length ≤ c.rest.length := by
  have h := c.rest_skipBlanks_le
  unfold reserved
  split
  · simp only [rest_advance]
    omega
  · exact h

theorem rest_reserved_lt {c : Cursor} {word : Word} (h : c.reserved.1 = some word) :
    c.reserved.2.rest.length < c.rest.length := by
  have hs := c.rest_skipBlanks_le
  unfold reserved at h ⊢
  split
  · rename_i w hw
    have hl := Word.length_le_of_longest? hw
    have hp := w.letters_length_pos
    simp only [rest_advance]
    omega
  · rename_i hw
    rw [hw] at h
    cases h

theorem rest_number_le (c : Cursor) : c.number.2.rest.length ≤ c.rest.length :=
  Nat.le_trans (rest_popWhile_le _ _) c.rest_skipBlanks_le

theorem rest_number_lt {c : Cursor} {run : String} (h : c.number.1 = some run) :
    c.number.2.rest.length < c.rest.length :=
  Nat.lt_of_lt_of_le (rest_popWhile_lt h) c.rest_skipBlanks_le

theorem rest_ident_le (c : Cursor) : c.ident.2.rest.length ≤ c.rest.length :=
  Nat.le_trans (rest_popWhile_le _ _) c.rest_skipBlanks_le

theorem rest_ident_lt {c : Cursor} {run : String} (h : c.ident.1 = some run) :
    c.ident.2.rest.length < c.rest.length :=
  Nat.lt_of_lt_of_le (rest_popWhile_lt h) c.rest_skipBlanks_le

theorem rest_charLiteral_le (c : Cursor) (start : Nat) :
    (c.charLiteral start).2.rest.length ≤ c.rest.length := by
  have h := c.rest_skipWhile_le isNotQuote
  unfold charLiteral
  split
  · simp only [rest_advance]
    omega
  · exact h

end Cursor
end Text
end Bracket
