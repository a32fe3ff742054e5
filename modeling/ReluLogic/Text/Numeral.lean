import ReluLogic.Scalar

/-!
Decimal numerals of integers. Writing gives the shortest numeral; reading accepts a sign where the
kind of number has one, needs at least one digit, and refuses what lies outside the kind's range.
-/

namespace ReluLogic.Numeral

def digitChar (digit : Nat) : Char :=
  Char.ofNat ('0'.toNat + digit)

def digit? (c : Char) : Option Nat :=
  if '0' ≤ c ∧ c ≤ '9' then some (c.toNat - '0'.toNat) else none

def isDigit (c : Char) : Bool :=
  (digit? c).isSome

def ofNat (value : Nat) : List Char :=
  if value < 10 then [digitChar value]
  else ofNat (value / 10) ++ [digitChar (value % 10)]
  termination_by value

/-- The numeral of an integer, with a minus sign below zero. -/
def ofInt (value : Int) : List Char :=
  if value < 0 then '-' :: ofNat value.natAbs else ofNat value.natAbs

/-- The number that a run of digits stands for when `value` stands before it. -/
def extend? (value : Nat) : List Char → Option Nat
  | [] => some value
  | c :: rest => do
    let digit ← digit? c
    extend? (value * 10 + digit) rest

/-- The number that a non-empty run of digits stands for. -/
def nat? (text : List Char) : Option Nat :=
  if text.isEmpty then none else extend? 0 text

/-- A natural number below two to the 64, with or without a plus sign. -/
def unsigned64? (text : List Char) : Option Nat := do
  let value ← nat? (if text.head? = some '+' then text.tail else text)
  if value ≤ unsigned64Max then some value else none

/-- An integer in the signed 64-bit range, with or without a sign. -/
def signed64? (text : List Char) : Option Int := do
  let value : Int ← match text with
    | '-' :: digits => (nat? digits).map fun n => -(n : Int)
    | '+' :: digits => (nat? digits).map Int.ofNat
    | digits => (nat? digits).map Int.ofNat
  if int64Min ≤ value ∧ value ≤ int64Max then some value else none

end ReluLogic.Numeral
