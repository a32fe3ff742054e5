import ReluLogic.Encoding.Constant
import ReluLogic.Encoding.Scale

/-!
Encoding of an affine piece, cut off to the unit interval. The piece is split by the signs of its
coefficients into `P - N`; with a scale `b` that bounds both groups, `P / b` and `N / b` are strong
disjunctions of fractions of inputs, and the piece is `b` times the negation of `P / b → N / b`.
-/

namespace ReluLogic

namespace Encoding

/-- A part of a group: a formula to disjoin and the formulas that define its variables. -/
structure Part where
  formula : Formula
  defining : List Formula

/-- The fraction `numerator / denominator` of an input. A new variable carries the input divided by the
larger of the two, the doubling chain of the larger multiple stands behind it, and the smaller multiple
is read off the chain. -/
def inputTerm (term : ScaledTerm) (constant : Nat) (definition : List Formula) : Encoding Part := do
  if variableMax < term.input then fail (.inputOutOfRange term.input)
  else
    let aux ← Allocator.fresh
    let large ← multiple (max term.numerator term.denominator) (.atom aux)
    let (value, whole) ← do
      if term.numerator = term.denominator then pure (large.phi, large.phi)
      else if term.numerator < term.denominator then
        pure (← chainMultiple term.numerator aux, large.phi)
      else
        pure (large.phi, ← chainMultiple term.denominator aux)
    pure ⟨value, definition ++ large.defining ++
      [whole.equivalent (.atom term.input), (Formula.atom aux).push .implication (.atom constant)]⟩

/-- The part of one term with a numerator other than zero. -/
def termPart (term : ScaledTerm) : Encoding Part := do
  let (index, definition) ← constant term.denominator
  if term.input = 0 then
    let product ← multiplyConstant term.numerator term.denominator
    pure ⟨product.phi, definition ++ product.defining⟩
  else
    inputTerm term index definition

/-- A group with one more term; a zero term adds nothing. -/
def addTerm (group : Modsat) (term : ScaledTerm) : Encoding Modsat := do
  if term.numerator = 0 then pure group
  else
    let part ← termPart term
    pure ⟨group.phi.push .strongDisjunction part.formula, group.defining ++ part.defining⟩

/-- The strong disjunction of the terms of a group. -/
def group (terms : List ScaledTerm) : Encoding Modsat := do
  if terms.all (·.numerator == 0) then pure (.ofFormula (← zeroFormula))
  else terms.foldlM addTerm ⟨.empty, []⟩

/-- The encoding of scaled terms: the scale times what the terms of non-negative sign exceed the others
by. -/
def ofTerms (scale : Nat) (terms : List ScaledTerm) : Encoding Modsat := do
  let positive ← group (terms.filter (!·.negative))
  let negative ← group (terms.filter (·.negative))
  let difference := (positive.phi.push .implication negative.phi).negate
  let scaled ← multiple scale difference
  pure ⟨scaled.phi, positive.defining ++ negative.defining ++ scaled.defining⟩

/-- The scale of coefficients and their scaled terms, before any variable is handed out. -/
def prepare (coefficients : List Fraction) : Except EncodingFault (Nat × List ScaledTerm) := do
  let scale ← scaleOf coefficients
  let terms ← scaledTerms scale 0 coefficients
  pure (scale, terms)

/-- The encoding of the affine function with the given coefficients, constant term first, cut off to
the unit interval. -/
def encode (coefficients : List Fraction) : Encoding Modsat := do
  if coefficients.all Fraction.isZero then pure (.ofFormula (← zeroFormula))
  else
    match prepare coefficients with
    | .error fault => fail fault
    | .ok (scale, terms) => ofTerms scale terms

end Encoding

end ReluLogic
