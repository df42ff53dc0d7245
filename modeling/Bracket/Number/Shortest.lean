import Bracket.Number.Decimal

/-!
# Bracket.Number.Shortest

The shortest decimal that rounds to a given positive double, found by exact arithmetic on natural
numbers.

The reals that round to a double form an interval around it, ends included when its mantissa is
even. On the grid of decimals with `n` significant digits only the two neighbours of the double
need to be looked at: the first grid, coarsest first, with a neighbour in the interval wins, of two
hits the nearer one, and of two equally near the larger.
-/

namespace Bracket
namespace Number

/-- A positive double `mantissa · 2 ^ exponent`, its exponent the one its last place has. -/
structure Dyadic where
  mantissa : Nat
  exponent : Int

/-- The magnitude held in the bits of a finite double. -/
def Dyadic.ofBits (bits : UInt64) : Dyadic :=
  let fraction : Nat := bits.toNat % twoTo 52
  let biased : Nat := bits.toNat / twoTo 52 % twoTo 11
  if biased = 0 then ⟨fraction, -1074⟩ else ⟨twoTo 52 + fraction, Int.ofNat biased - 1075⟩

/-- The reals between `low / scale` and `high / scale`, around `centre / scale`. -/
structure Interval where
  low : Nat
  centre : Nat
  high : Nat
  scale : Nat
  closed : Bool

/-- The reals that round to a double. Below a power of two the next double is half as far away. -/
def Dyadic.interval (x : Dyadic) : Interval :=
  let quarter := twoTo (x.exponent - 2).toNat
  let below := if x.mantissa = twoTo 52 ∧ -1074 < x.exponent then 1 else 2
  { low := (4 * x.mantissa - below) * quarter
    centre := 4 * x.mantissa * quarter
    high := (4 * x.mantissa + 2) * quarter
    scale := twoTo (2 - x.exponent).toNat
    closed := x.mantissa % 2 == 0 }

namespace Interval

/-- The decimal over the common denominator of both sides. -/
def lift (i : Interval) (d : Decimal) : Nat := d.digits * tenTo d.exponent.toNat * i.scale

/-- A point of the interval over the common denominator of both sides. -/
def lower (d : Decimal) (point : Nat) : Nat := point * tenTo (-d.exponent).toNat

def contains (i : Interval) (d : Decimal) : Bool :=
  if i.closed then
    decide (lower d i.low ≤ i.lift d) && decide (i.lift d ≤ lower d i.high)
  else
    decide (lower d i.low < i.lift d) && decide (i.lift d < lower d i.high)

def distance (i : Interval) (d : Decimal) : Nat :=
  (i.lift d - lower d i.centre) + (lower d i.centre - i.lift d)

/-- How many digits the centre has before its point; not positive when it starts with zeros.
The smallest double is above `10 ^ -340`, so the scaled quotient is never zero. -/
def magnitude (i : Interval) : Int :=
  ((Nat.toDigits 10 (i.centre * tenTo 340 / i.scale)).length : Int) - 340

/-- The largest decimal with the given exponent that is at most the centre. -/
def floorAt (i : Interval) (exponent : Int) : Decimal :=
  ⟨i.centre * tenTo (-exponent).toNat / (i.scale * tenTo exponent.toNat), exponent⟩

/-- The decimal with `n` significant digits nearest to the centre, if one lies in the interval. -/
def onGrid? (i : Interval) (n : Nat) : Option Decimal :=
  let down := i.floorAt (i.magnitude - n)
  let up : Decimal := { down with digits := down.digits + 1 }
  match i.contains down, i.contains up with
  | true, true => if i.distance down < i.distance up then some down else some up
  | true, false => some down
  | false, true => some up
  | false, false => none

/-- Seventeen digits tell any two doubles apart, so one of the grids has a hit. -/
def shortest (i : Interval) : Decimal :=
  match (List.range' 1 17).findSome? i.onGrid? with
  | some d => d.trim
  | none => i.floorAt (i.magnitude - 17)

end Interval

def Dyadic.shortest (x : Dyadic) : Decimal := x.interval.shortest

end Number
end Bracket
