import ReluLogic.Decimal.Basic

/-!
The shortest decimal that reads back as a given binary number. The reals that round to the number
`m · 2 ^ q` form an interval; of the grids of one digit, two digits and so on, the first with a point in
the interval is taken, and of two such points the nearer one, the upper one on a tie. All comparisons are
between natural numbers.
-/

namespace ReluLogic

/-- A positive binary number `mantissa · 2 ^ exponent` with the interval of reals that round to it. -/
structure BinaryNumber where
  mantissa : Nat
  exponent : Int
  /-- The neighbour below is half as far away as the one above. -/
  closeBelow : Bool
  deriving Repr, DecidableEq

/-- A number and the ends of its rounding interval over a common denominator. -/
structure RoundingInterval where
  low : Nat
  middle : Nat
  high : Nat
  denominator : Nat
  /-- Whether the ends belong to the interval. -/
  closed : Bool
  deriving Repr, DecidableEq

namespace RoundingInterval

/-- The rounding interval of a number. Its ends lie halfway to the neighbours, and belong to it when the
mantissa is even. -/
def ofBinary (number : BinaryNumber) : RoundingInterval :=
  let scale := Nat.pow 2 (number.exponent - 2).toNat
  { low := (4 * number.mantissa - if number.closeBelow then 1 else 2) * scale
    middle := 4 * number.mantissa * scale
    high := (4 * number.mantissa + 2) * scale
    denominator := Nat.pow 2 (2 - number.exponent).toNat
    closed := number.mantissa % 2 = 0 }

/-- The interval in units of `10 ^ power`. -/
def inUnits (interval : RoundingInterval) (power : Int) : RoundingInterval :=
  let scale := Nat.pow 10 (-power).toNat
  { interval with
    low := interval.low * scale
    middle := interval.middle * scale
    high := interval.high * scale
    denominator := interval.denominator * Nat.pow 10 power.toNat }

def contains (interval : RoundingInterval) (n : Nat) : Bool :=
  let point := n * interval.denominator
  if interval.closed then interval.low ≤ point && point ≤ interval.high
  else interval.low < point && point < interval.high

/-- The integer in the interval that is nearest to its middle, if one of the two neighbours of the middle
lies in it. -/
def nearest? (interval : RoundingInterval) : Option Nat :=
  let below := interval.middle / interval.denominator
  let above := below + 1
  match interval.contains below, interval.contains above with
  | true, true =>
    if 2 * interval.middle < (below + above) * interval.denominator then some below else some above
  | true, false => some below
  | false, true => some above
  | false, false => none

/-- Whether `10 ^ power` is at most the number. -/
def reaches (interval : RoundingInterval) (power : Int) : Bool :=
  let unit := interval.inUnits power
  unit.denominator ≤ unit.middle

/-- The largest power of ten that is at most the number, from an estimate that is off by one at most. -/
def leadingPower (interval : RoundingInterval) (estimate : Int) : Int :=
  if interval.reaches (estimate + 1) then estimate + 1
  else if interval.reaches estimate then estimate
  else estimate - 1

/-- The first grid with a point in the interval, from `10 ^ power` downwards; if `count` grids have none,
the integer part on the last of them. -/
def search (interval : RoundingInterval) : Nat → Int → Decimal
  | 0, power =>
    let unit := interval.inUnits power
    .stripZeros (unit.middle / unit.denominator) power
  | count + 1, power =>
    match (interval.inUnits power).nearest? with
    | some digits => .stripZeros digits power
    | none => search interval count (power - 1)

end RoundingInterval

namespace BinaryNumber

/-- The shortest decimal that reads back as a number. Seventeen digits always do. -/
def shortest (number : BinaryNumber) : Decimal :=
  let interval := RoundingInterval.ofBinary number
  let binaryLog : Int := number.mantissa.log2 + number.exponent
  interval.search 17 (interval.leadingPower (binaryLog * 30103 / 100000))

end BinaryNumber

end ReluLogic
