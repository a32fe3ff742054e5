import ReluLogic.Formula.Basic

/-!
A formula modulo satisfiability: a formula together with others that must hold for it to carry its
intended value.
-/

namespace ReluLogic

/-- A formula and its defining formulas. -/
structure Modsat where
  phi : Formula
  defining : List Formula
  deriving Repr, DecidableEq

namespace Modsat

/-- A formula that needs no definitions. -/
def ofFormula (phi : Formula) : Modsat := ⟨phi, []⟩

/-- Whether a formula has the degree one up to a tolerance. -/
def holds {α : Type} [Scalar α] (valuation : Nat → α) (tolerance : α) (formula : Formula) :
    Except Dangling Bool := do
  match ← formula.evaluate valuation with
  | some degree => pure (decide (1 - tolerance ≤ degree))
  | none => pure false

/-- Whether all formulas of a list hold; those after the first that does not are not looked at. -/
def allHold {α : Type} [Scalar α] (valuation : Nat → α) (tolerance : α) :
    List Formula → Except Dangling Bool
  | [] => pure true
  | formula :: rest => do
    if ← holds valuation tolerance formula then allHold valuation tolerance rest else pure false

/-- Whether every defining formula holds. -/
def definedBy {α : Type} [Scalar α] (modsat : Modsat) (valuation : Nat → α) (tolerance : α) :
    Except Dangling Bool :=
  allHold valuation tolerance modsat.defining

end Modsat

end ReluLogic
