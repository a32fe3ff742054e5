import ReluLogic.Encoding.Doubling

/-!
Unit fractions and their multiples. The constant `c` for `1 / d` is defined by its equivalence with the
negation of `(d - 1) · c`, which only `1 / d` satisfies. The doubling chain of that multiple stands right
behind the constant, so the variable `c + 1 + i` carries `2 ^ i / d` and further multiples of the constant
are read off it.
-/

namespace ReluLogic

/-- Computations that hand out variables and may fail; a failure keeps what was handed out. -/
abbrev Encoding := ExceptT Error (StateM Allocator)

namespace Encoding

def fail {β : Type} (fault : EncodingFault) : Encoding β :=
  throw (.encoding fault)

/-- Hands out the constant of `1 / denominator`; gives it with its defining formulas. -/
def defineConstant (denominator : Nat) : Encoding (Nat × List Formula) := do
  if denominator = 0 then fail .zeroDenominatorConstant
  else
    let index ← Allocator.newConstant denominator
    let constant := Formula.atom index
    let rest ← multiple (denominator - 1) constant
    pure (index, rest.defining ++ [constant.equivalent rest.phi.negate])

/-- The constant of `1 / denominator`, with its defining formulas if it is new. -/
def constant (denominator : Nat) : Encoding (Nat × List Formula) := do
  match (← get).constants.get? denominator with
  | some index => pure (index, [])
  | none => defineConstant denominator

/-- The whole `denominator · (1 / denominator)` of a constant whose chain ends at one half: the last
variable of the chain doubled. -/
def wholeMultiple (constant denominator : Nat) : Encoding Modsat := do
  let top : Int := ((constant + denominator.log2 : Nat) : Int)
  let allocation ← Allocator.auxMultiplier denominator
  let aux := Formula.atom allocation.index
  pure ⟨aux, if allocation.isFresh then [aux.equivalent (.clause [top, top])] else []⟩

/-- The fraction `numerator / denominator`, at most one, of a constant that is defined already. -/
def multiplyConstant (numerator denominator : Nat) : Encoding Modsat := do
  match (← get).constants.get? denominator with
  | none => fail (.undefinedConstant denominator)
  | some constant =>
    if denominator ≤ 2 then multiple numerator (.atom constant)
    else if numerator = 0 then pure (.ofFormula (← zeroFormula))
    else if numerator.log2 ≤ (denominator - 1).log2 then
      pure (.ofFormula (bitClause (constant + 1) numerator))
    else if numerator = denominator then wholeMultiple constant denominator
    else fail (.exceedsOne numerator denominator)

/-- The multiple `n · index` of a variable whose doubling chain stands right behind it. -/
def chainMultiple (n index : Nat) : StateM Allocator Formula := do
  if n = 0 then zeroFormula
  else if n = 1 then pure (.atom index)
  else pure (bitClause (index + 1) n)

end Encoding

end ReluLogic
