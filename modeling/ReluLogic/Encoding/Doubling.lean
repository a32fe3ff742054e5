import ReluLogic.Allocator
import ReluLogic.Formula.Modsat

/-!
Natural multiples of a formula. The multiple `n · term`, cut off at one, is the strong disjunction of
some variables of a doubling chain: the first variable of the chain is equivalent to the term, each
next one to the strong disjunction of its predecessor with itself, and the bits of `n` say which of
them take part.
-/

namespace ReluLogic

/-- The places of the bits that are set in a number, in ascending order. -/
def setBits (n : Nat) : List Nat :=
  (List.range (n.log2 + 1)).filter n.testBit

namespace Encoding

/-- The constant zero: no strong disjunction of a variable with its negation falls short of one. -/
def zeroFormula : StateM Allocator Formula := do
  let index ← Allocator.zeroVariable
  pure (Formula.clause [-(index : Int), index]).negate

/-- The clause of the variables that stand at the set bits of `n`, counted from `first`. -/
def bitClause (first n : Nat) : Formula :=
  .clause ((setBits n).map fun bit => ((first + bit : Nat) : Int))

/-- The formulas that define a chain of variables from `first` on, with `last` doublings. -/
def chain (first : Nat) (term : Formula) (last : Nat) : List Formula :=
  (Formula.atom first).equivalent term ::
    (List.range last).map fun step =>
      let previous : Nat := first + step
      (Formula.atom (previous + 1)).equivalent (.clause [(previous : Int), (previous : Int)])

/-- The multiple `n · term`, cut off at one. For `n` from two on it takes one new variable per bit. -/
def multiple (n : Nat) (term : Formula) : StateM Allocator Modsat := do
  if n = 0 then pure (.ofFormula (← zeroFormula))
  else if n = 1 then pure (.ofFormula term)
  else
    let first ← Allocator.freshBlock (n.log2 + 1)
    pure ⟨bitClause first n, chain first term n.log2⟩

end Encoding

end ReluLogic
