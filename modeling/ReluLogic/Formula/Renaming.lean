import ReluLogic.Formula.Basic

/-!
Renaming the variables of a formula: the first few become given ones, all others move up by a fixed
amount. A renaming that leaves the range of variables is refused as a whole.
-/

namespace ReluLogic

structure Renaming where
  /-- The new names of the variables `1`, `2`, and so on. -/
  inputs : List Nat
  /-- What is added to every other variable. -/
  shift : Nat
  deriving Repr, DecidableEq

namespace Renaming

/-- The new name of an input, if the variable is one. -/
def input? (names : Renaming) (index : Nat) : Option Nat :=
  if index = 0 then none else names.inputs[index - 1]?

/-- The new name of a variable that is no input. -/
def moved (names : Renaming) (index : Nat) : Except Error Nat :=
  if index ≤ variableMax ∧ index + names.shift ≤ variableMax then pure (index + names.shift)
  else throw (.allocator (.shiftOutOfRange index names.shift))

/-- A literal of the same sign over the given variable. -/
def withVariable (literal : Int) (index : Nat) : Int :=
  if literal < 0 then -(index : Int) else index

/-- A literal renamed, and the larger of `largest` and its new variable if that is no input. -/
def literal (names : Renaming) (largest : Nat) (literal : Int) : Except Error (Int × Nat) :=
  match names.input? literal.natAbs with
  | some index => pure (withVariable literal index, largest)
  | none => do
    let index ← names.moved literal.natAbs
    pure (withVariable literal index, max largest index)

def literals (names : Renaming) : Nat → List Int → Except Error (List Int × Nat)
  | largest, [] => pure ([], largest)
  | largest, first :: rest => do
    let (renamed, largest) ← names.literal largest first
    let (others, largest) ← names.literals largest rest
    pure (renamed :: others, largest)

def units (names : Renaming) : Nat → List Subformula → Except Error (List Subformula × Nat)
  | largest, [] => pure ([], largest)
  | largest, .clause first :: rest => do
    let (renamed, largest) ← names.literals largest first
    let (others, largest) ← names.units largest rest
    pure (.clause renamed :: others, largest)
  | largest, unit :: rest => do
    let (others, largest) ← names.units largest rest
    pure (unit :: others, largest)

end Renaming

/-- The formula under a renaming, and the largest new variable that is no input, or zero. -/
def Formula.rename (formula : Formula) (names : Renaming) : Except Error (Formula × Nat) := do
  let (units, largest) ← names.units 0 formula.units
  pure (⟨units⟩, largest)

/-- Puts the formula that is held under a renaming; gives the largest new variable that is no input, or
zero. A refused renaming leaves the formula as it is. -/
def Renaming.perform (names : Renaming) : ExceptT Error (StateM Formula) Nat := do
  let (renamed, largest) ← liftExcept ((← get).rename names)
  set renamed
  pure largest

end ReluLogic
