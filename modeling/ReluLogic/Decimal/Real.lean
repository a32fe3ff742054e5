import ReluLogic.Decimal.Shortest

/-!
Text of floating-point numbers. Written text is positional, with the fewest digits that read back, no
point for integers and a sign for negative zero. Read text may have a sign, an exponent, a point at
either end of its digits, or be one of the words for infinities and for no number, in any case.
-/

namespace ReluLogic

/-- Numbers with a text form. -/
class RealText (α : Type) where
  /-- The text of a number. -/
  write : α → List Char
  /-- The number of a text. -/
  read? : List Char → Option α

namespace RealText

/-- The fields of a finite number other than zero, from the bits of its magnitude. -/
def binaryOfBits (bits : Nat) : BinaryNumber :=
  let biased : Nat := bits / Nat.pow 2 52
  let fraction : Nat := bits % Nat.pow 2 52
  if biased = 0 then ⟨fraction, -1074, false⟩
  else ⟨fraction + Nat.pow 2 52, (biased : Int) - 1075, fraction == 0 && 1 < biased⟩

def writeMagnitude (bits : Nat) : List Char :=
  if bits = 0 then ['0']
  else if bits = 0x7ff * Nat.pow 2 52 then "inf".toList
  else (binaryOfBits bits).shortest.positional

def writeFloat (value : Float) : List Char :=
  if value.isNaN then "NaN".toList
  else
    let bits := value.toBits.toNat
    if bits < Nat.pow 2 63 then writeMagnitude bits else '-' :: writeMagnitude (bits - Nat.pow 2 63)

/-- The floating-point number nearest to a decimal. Beyond the powers of ten that the format reaches it is
infinite or zero. -/
def nearestFloat (decimal : Decimal) : Float :=
  if decimal.digits = 0 then 0
  else if 400 < decimal.exponent then 1 / 0
  else if decimal.exponent < -400 - decimal.digits.log2 then 0
  else Float.ofScientific decimal.digits (decimal.exponent < 0) decimal.exponent.natAbs

/-- An exponent mark and a signed integer, or nothing. -/
def readExponent? (text : List Char) : Option Int :=
  match text with
  | [] => some 0
  | mark :: rest =>
    if mark = 'e' ∨ mark = 'E' then
      match rest with
      | '-' :: digits => (Numeral.nat? digits).map fun n => -(n : Int)
      | '+' :: digits => (Numeral.nat? digits).map Int.ofNat
      | digits => (Numeral.nat? digits).map Int.ofNat
    else none

/-- Digits with a point among, before or behind them, and an optional exponent. -/
def readDecimal? (text : List Char) : Option Decimal := do
  let whole := text.takeWhile Numeral.isDigit
  let afterWhole := text.dropWhile Numeral.isDigit
  let (places, rest) := match afterWhole with
    | '.' :: tail => (tail.takeWhile Numeral.isDigit, tail.dropWhile Numeral.isDigit)
    | _ => ([], afterWhole)
  let digits ← Numeral.nat? (whole ++ places)
  let exponent ← readExponent? rest
  pure ⟨digits, exponent - places.length⟩

/-- The value of a text without a sign. -/
def readUnsigned? (text : List Char) : Option Float :=
  let lower := text.map Char.toLower
  if lower = "inf".toList ∨ lower = "infinity".toList then some (1 / 0)
  else if lower = "nan".toList then some (0 / 0)
  else (readDecimal? text).map nearestFloat

def readFloat? (text : List Char) : Option Float :=
  match text with
  | '-' :: rest => (readUnsigned? rest).map (-·)
  | '+' :: rest => readUnsigned? rest
  | rest => readUnsigned? rest

end RealText

instance : RealText Float where
  write := RealText.writeFloat
  read? := RealText.readFloat?

end ReluLogic
