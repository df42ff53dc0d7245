import Bracket.Number.Shortest

/-!
# Bracket.Number.Text

The text of a number: printing with the fewest digits that read back, and reading with correct
rounding.
-/

namespace Bracket
namespace Number

/-! ## Printing -/

def isNegative (x : Float) : Bool := decide (twoTo 63 ≤ x.toBits.toNat)

/-- A sign, also before zero, and the shortest digits; a number that is none has no sign. -/
def print (x : Float) : String :=
  if x.isNaN then "NaN"
  else
    (if isNegative x then "-" else "") ++
      (if x.isInf then "inf"
      else if x == 0.0 then "0"
      else (Dyadic.ofBits x.toBits).shortest.text)

/-! ## Reading -/

def naturalOfDigits (digits : List Char) : Nat :=
  digits.foldl (fun n c => 10 * n + (c.toNat - '0'.toNat)) 0

/-- Whether the text is negative, and the text after its sign. -/
def splitSign : List Char → Bool × List Char
  | '-' :: rest => (true, rest)
  | '+' :: rest => (false, rest)
  | rest => (false, rest)

/-- The exponent at the end of a number: absent, or `e` and at least one digit. -/
def exponent? : List Char → Option Int
  | [] => some 0
  | e :: rest =>
    let (negative, digits) := splitSign rest
    if (e == 'e' || e == 'E') && !digits.isEmpty && digits.all Char.isDigit then
      let n : Int := naturalOfDigits digits
      some (if negative then -n else n)
    else
      none

/-- Digits with at most one point among them, at least one digit, and an exponent. -/
def decimal? (text : List Char) : Option Decimal :=
  let whole := text.takeWhile Char.isDigit
  let afterWhole := text.dropWhile Char.isDigit
  let afterPoint := match afterWhole with
    | '.' :: rest => rest
    | _ => []
  let fraction := afterPoint.takeWhile Char.isDigit
  let tail := match afterWhole with
    | '.' :: rest => rest.dropWhile Char.isDigit
    | rest => rest
  if whole.isEmpty && fraction.isEmpty then none
  else
    (exponent? tail).map fun e =>
      ⟨naturalOfDigits (whole ++ fraction), e - (fraction.length : Int)⟩

def infinity : Float := 1.0 / 0.0

def nan : Float := 0.0 / 0.0

/-- A number without its sign: a name in any case, or a decimal rounded to the nearest double. -/
def magnitude? (text : List Char) : Option Float :=
  let name := text.map Char.toLower
  if name = ['i', 'n', 'f'] ∨ name = ['i', 'n', 'f', 'i', 'n', 'i', 't', 'y'] then some infinity
  else if name = ['n', 'a', 'n'] then some nan
  else (decimal? text).map Decimal.toFloat

def read? (text : List Char) : Option Float :=
  let (negative, rest) := splitSign text
  (magnitude? rest).map fun x => if negative then -x else x

end Number
end Bracket
