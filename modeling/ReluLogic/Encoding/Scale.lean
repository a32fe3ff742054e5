import ReluLogic.Error
import ReluLogic.Fraction

/-!
The scale of an affine piece: the least integer that bounds both the sum of its positive coefficients
and the sum of the magnitudes of its negative ones. Sums are kept in lowest terms and refused when a
part of their computation leaves the signed 128-bit range; scales and scaled denominators are refused
beyond 64 bits.
-/

namespace ReluLogic

namespace Fraction

def within128 (value : Int) : Option Int :=
  if -0x80000000000000000000000000000000 ≤ value ∧ value ≤ 0x7fffffffffffffffffffffffffffffff then some value
  else none

/-- Two fractions with positive denominators brought over their common denominator, their numerators
combined, and the result in lowest terms. -/
def combine? (operation : Int → Int → Int) (left right : Fraction) : Option Fraction := do
  let common ← within128 (left.den / Int.gcd left.den right.den * right.den)
  let first ← within128 (common / left.den * left.num)
  let second ← within128 (common / right.den * right.num)
  let total ← within128 (operation first second)
  pure (make total common)

/-- The sum of two fractions, if its computation stays in range. -/
def add? (left right : Fraction) : Option Fraction :=
  combine? (· + ·) left right

/-- The difference of two fractions, if its computation stays in range. -/
def sub? (left right : Fraction) : Option Fraction :=
  combine? (· - ·) left right

/-- The larger of two fractions with positive denominators. -/
def larger (left right : Fraction) : Fraction :=
  if left.num * right.den ≤ right.num * left.den then right else left

/-- The least integer that is not below a non-negative fraction in lowest terms. -/
def ceiling (fraction : Fraction) : Int :=
  if fraction.den = 1 then fraction.num else fraction.num / fraction.den + 1

end Fraction

/-- The sums of the coefficients on either side of zero, both non-negative. -/
structure SignedSums where
  positive : Fraction
  negative : Fraction
  deriving Repr, DecidableEq

namespace SignedSums

def zero : SignedSums := ⟨.zero, .zero⟩

def add (sums : SignedSums) (coefficient : Fraction) : Except EncodingFault SignedSums :=
  if coefficient.den = 0 then throw .zeroDenominator
  else
    let term := coefficient.reduced
    if term.num < 0 then
      match sums.negative.sub? term with
      | some negative => pure { sums with negative }
      | none => throw .sumOverflow
    else
      match sums.positive.add? term with
      | some positive => pure { sums with positive }
      | none => throw .sumOverflow

def ofCoefficients (coefficients : List Fraction) : Except EncodingFault SignedSums :=
  coefficients.foldlM add zero

/-- The least integer that bounds both sums. -/
def bound (sums : SignedSums) : Int :=
  (sums.positive.larger sums.negative).ceiling

end SignedSums

def scaleOf (coefficients : List Fraction) : Except EncodingFault Nat := do
  let sums ← SignedSums.ofCoefficients coefficients
  if sums.bound < 0 ∨ (unsigned64Max : Int) < sums.bound then throw (.scaleOutOfRange sums.bound)
  else pure sums.bound.toNat

/-- One scaled coefficient of a piece: `numerator / denominator` of the input, or of one if `input` is
zero. -/
structure ScaledTerm where
  input : Nat
  negative : Bool
  numerator : Nat
  denominator : Nat
  deriving Repr, DecidableEq

/-- A coefficient in lowest terms divided by the scale. -/
def ScaledTerm.ofCoefficient (scale input : Nat) (coefficient : Fraction) :
    Except EncodingFault ScaledTerm :=
  let lowest := coefficient.reduced
  let denominator := lowest.den.natAbs * scale
  if unsigned64Max < denominator then throw (.denominatorOverflow lowest.den.natAbs scale)
  else pure ⟨input, coefficient.isNegative, lowest.num.natAbs, denominator⟩

/-- The coefficients from place `input` on divided by the scale. -/
def scaledTerms (scale : Nat) : Nat → List Fraction → Except EncodingFault (List ScaledTerm)
  | _, [] => pure []
  | input, coefficient :: rest => do
    let term ← ScaledTerm.ofCoefficient scale input coefficient
    let terms ← scaledTerms scale (input + 1) rest
    pure (term :: terms)

end ReluLogic
