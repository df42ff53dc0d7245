/-!
# Bracket.Number.Decimal

Decimal fractions `digits · 10 ^ exponent` and their positional text, which never has an exponent
and never ends in a needless zero.
-/

namespace Bracket
namespace Number

def twoTo (n : Nat) : Nat := Nat.pow 2 n

def tenTo (n : Nat) : Nat := Nat.pow 10 n

structure Decimal where
  digits : Nat
  exponent : Int
deriving DecidableEq

namespace Decimal

/-- The same fraction with the zeros at the end of its digits moved into the exponent. -/
def trim (d : Decimal) : Decimal :=
  let n := ((Nat.toDigits 10 d.digits).reverse.takeWhile (· == '0')).length
  ⟨d.digits / tenTo n, d.exponent + n⟩

def zeros (n : Nat) : List Char := List.replicate n '0'

/-- Places the point among the digits: after added zeros, between two digits, or before them. -/
def place (digits : List Char) (exponent : Int) : List Char :=
  if 0 ≤ exponent then
    digits ++ zeros exponent.toNat
  else
    let places := (-exponent).toNat
    if places < digits.length then
      digits.take (digits.length - places) ++ '.' :: digits.drop (digits.length - places)
    else
      '0' :: '.' :: zeros (places - digits.length) ++ digits

def text (d : Decimal) : String :=
  String.ofList (place (Nat.toDigits 10 d.digits) d.exponent)

/-- The double nearest to the fraction, a tie going to the even neighbour. -/
def toFloat (d : Decimal) : Float :=
  Float.ofScientific d.digits (decide (d.exponent < 0)) d.exponent.natAbs

end Decimal

end Number
end Bracket
