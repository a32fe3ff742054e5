/-!
The numbers that networks, affine forms and truth degrees are computed with. Every numeric definition
of the library is written once over `Scalar`: over `Float` it runs, over `Rat` the same operations in
the same order are exact. Sums are taken from the left and start at zero.
-/

namespace ReluLogic

/-- A number type with the field operations, decidable comparisons and the three conversions that the
library needs. No law is assumed, since floating-point arithmetic keeps almost none. -/
class Scalar (α : Type) extends
    Zero α, One α, Add α, Sub α, Mul α, Div α, Neg α, LT α, LE α, BEq α where
  /-- Strict comparison is decidable. -/
  decLt : DecidableLT α
  /-- Comparison is decidable. -/
  decLe : DecidableLE α
  /-- The value of an integer, rounded where it has no exact one. -/
  ofInt : Int → α
  /-- Whether the value is a number on the real line. -/
  isFinite : α → Bool
  /-- The nearest integer, a half away from zero, held within the signed 64-bit range. A value that is
  no number gives zero. -/
  nearestInt : α → Int

-- A type that brings its own operations keeps them.
attribute [instance (100)] Scalar.toZero Scalar.toOne Scalar.toAdd Scalar.toSub Scalar.toMul Scalar.toDiv
  Scalar.toNeg Scalar.toLT Scalar.toLE Scalar.toBEq

namespace Scalar

variable {α : Type} [Scalar α]

instance : DecidableLT α := decLt

instance : DecidableLE α := decLe

/-- The larger of two values; a value that is not equal to itself is passed over. -/
def larger (a b : α) : α :=
  if a < b then b else if a == a then a else b

/-- The smaller of two values; a value that is not equal to itself is passed over. -/
def smaller (a b : α) : α :=
  if b < a then b else if a == a then a else b

def magnitude (a : α) : α :=
  if a < 0 then -a else a

/-- The sum of a list, added up from the left. -/
def sum (values : List α) : α :=
  values.foldl (· + ·) 0

/-- The inner product of two lists, paired up to the shorter one. -/
def dot (coefficients point : List α) : α :=
  sum (List.zipWith (· * ·) coefficients point)

end Scalar

def int64Max : Int := 0x7fffffffffffffff

def int64Min : Int := -0x8000000000000000

def unsigned64Max : Nat := 0xffffffffffffffff

/-- The nearest integer to a rational, a half away from zero. -/
def roundHalfAway (value : Rat) : Int :=
  if value < 0 then -(-value + 1 / 2).floor else (value + 1 / 2).floor

instance : Scalar Float where
  decLt := inferInstance
  decLe := inferInstance
  ofInt := Float.ofInt
  isFinite := Float.isFinite
  nearestInt value := value.round.toInt64.toInt

instance : Scalar Rat where
  zero := 0
  one := 1
  decLt := inferInstance
  decLe := inferInstance
  ofInt value := (value : Rat)
  isFinite _ := true
  nearestInt value := max int64Min (min int64Max (roundHalfAway value))

end ReluLogic
