import Bracket.Text.CharClass

/-!
# Bracket.Text.Cursor

A place in a text: the characters still to be read and how many bytes of UTF-8 lie before them.
Moving a cursor never lengthens what is left.
-/

namespace Bracket
namespace Text

def byteLength (text : List Char) : Nat := text.foldr (fun c n => c.utf8Size + n) 0

structure Cursor where
  rest : List Char
  position : Nat

namespace Cursor

def ofString (text : String) : Cursor := ⟨text.toList, 0⟩

def advance (c : Cursor) (n : Nat) : Cursor :=
  ⟨c.rest.drop n, c.position + byteLength (c.rest.take n)⟩

/-- The cursor behind the longest run of a class, which may be empty. -/
def skipWhile (c : Cursor) (test : Char → Bool) : Cursor :=
  ⟨c.rest.dropWhile test, c.position + byteLength (c.rest.takeWhile test)⟩

/-- The longest run of a class, or nothing if the next character is not of the class. -/
def popWhile (c : Cursor) (test : Char → Bool) : Option String × Cursor :=
  match c.rest.takeWhile test with
  | [] => (none, c)
  | run => (some (String.ofList run), c.skipWhile test)

def skipBlanks (c : Cursor) : Cursor := c.skipWhile isBlank

/-- Only blanks are left; the cursor behind them comes with the answer. -/
def isAtEnd (c : Cursor) : Bool × Cursor := (c.skipBlanks.rest.isEmpty, c.skipBlanks)

/-! ## What is left -/

theorem length_dropWhile_le (test : Char → Bool) (text : List Char) :
    (text.dropWhile test).length ≤ text.length := by
  have h := List.takeWhile_append_dropWhile (p := test) (l := text)
  have := congrArg List.length h
  simp only [List.length_append] at this
  omega

theorem rest_skipWhile_le (c : Cursor) (test : Char → Bool) :
    (c.skipWhile test).rest.length ≤ c.rest.length :=
  length_dropWhile_le test c.rest

theorem rest_skipBlanks_le (c : Cursor) : c.skipBlanks.rest.length ≤ c.rest.length :=
  c.rest_skipWhile_le isBlank

theorem rest_advance (c : Cursor) (n : Nat) : (c.advance n).rest.length = c.rest.length - n := by
  simp [advance]

theorem rest_popWhile_le (c : Cursor) (test : Char → Bool) :
    (c.popWhile test).2.rest.length ≤ c.rest.length := by
  unfold popWhile
  split
  · exact Nat.le_refl _
  · exact c.rest_skipWhile_le test

/-- A run that is given back was taken from what is left. -/
theorem rest_popWhile_lt {c : Cursor} {test : Char → Bool} {run : String}
    (h : (c.popWhile test).1 = some run) :
    (c.popWhile test).2.rest.length < c.rest.length := by
  unfold popWhile at h ⊢
  split at h
  · cases h
  · rename_i hne
    have hl := congrArg List.length (List.takeWhile_append_dropWhile (p := test) (l := c.rest))
    have hp : 0 < (c.rest.takeWhile test).length := List.length_pos_iff.mpr hne
    simp only [List.length_append] at hl
    simp only [skipWhile]
    omega

end Cursor

end Text
end Bracket
