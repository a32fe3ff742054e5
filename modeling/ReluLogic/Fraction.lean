import ReluLogic.Scalar

/-!
Exact coefficients. A `Fraction` is a numerator over a denominator as written, with no promise about
common factors or signs; `Fraction.make` gives lowest terms. Decimal values become fractions at six
places: the magnitude is scaled by a million, rounded, and divided by what it shares with a million.
-/

namespace ReluLogic

/-- A numerator over a denominator, as written. -/
structure Fraction where
  num : Int
  den : Int
  deriving Repr, DecidableEq

namespace Fraction

/-- The integer `value` over one. -/
def ofInt (value : Int) : Fraction := ⟨value, 1⟩

def zero : Fraction := ofInt 0

def one : Fraction := ofInt 1

/-- Lowest terms with a positive denominator; zero becomes zero over one. -/
def make (num den : Int) : Fraction :=
  if num = 0 then zero
  else
    let common : Int := Int.gcd num den
    if den < 0 then ⟨-(num / common), -(den / common)⟩ else ⟨num / common, den / common⟩

/-- The same value in lowest terms. -/
def reduced (fraction : Fraction) : Fraction :=
  make fraction.num fraction.den

def isZero (fraction : Fraction) : Bool :=
  fraction.num == 0

/-- A fraction is negative when its two parts have opposite signs. -/
def isNegative (fraction : Fraction) : Bool :=
  (fraction.num < 0 && 0 < fraction.den) || (0 < fraction.num && fraction.den < 0)

def value {α : Type} [Scalar α] (fraction : Fraction) : α :=
  Scalar.ofInt fraction.num / Scalar.ofInt fraction.den

/-- Parts per unit of a decimal conversion: six places. -/
def precision : Int := 1000000

/-- The fraction nearest to `value` at six decimal places, in lowest terms. Beyond the 64-bit range
the scaled magnitude stays at its end. -/
def ofDecimal {α : Type} [Scalar α] (value : α) : Fraction :=
  let scaled := Scalar.nearestInt (Scalar.magnitude value * Scalar.ofInt precision)
  let common : Int := Int.gcd scaled precision
  if value < 0 then ⟨-(scaled / common), precision / common⟩
  else ⟨scaled / common, precision / common⟩

end Fraction

end ReluLogic
