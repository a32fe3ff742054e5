import ReluLogic.Error
import ReluLogic.Scalar

/-!
Formulas of Łukasiewicz logic. A formula is a list of subformulas in which each refers to earlier ones
by their places, and the last one is the formula itself; shared parts are written once. Joining two
formulas puts the right one behind the left one with its places moved up.
-/

namespace ReluLogic

/-- The largest propositional variable. Inputs of a network over `n` inputs are the variables `1` to
`n`. -/
def variableMax : Nat := 0xffffffff

inductive Connective where
  /-- The sum, at most one. -/
  | strongDisjunction
  /-- The sum less one, at least zero. -/
  | strongConjunction
  /-- One less the distance. -/
  | equivalence
  /-- One less the amount by which the first exceeds the second. -/
  | implication
  | maximum
  | minimum
  deriving Repr, DecidableEq

namespace Connective

/-- The truth degree of a connective from those of its operands. -/
def apply {α : Type} [Scalar α] (connective : Connective) (left right : α) : α :=
  match connective with
  | .strongDisjunction => Scalar.smaller (left + right) 1
  | .strongConjunction => Scalar.larger (left + right - 1) 0
  | .equivalence => 1 - Scalar.magnitude (left - right)
  | .implication => Scalar.smaller (1 - left + right) 1
  | .maximum => Scalar.larger left right
  | .minimum => Scalar.smaller left right

/-- The name of a connective in formula text. -/
def label : Connective → String
  | .strongDisjunction => "Disjunction"
  | .strongConjunction => "Conjunction"
  | .equivalence => "Equivalence"
  | .implication => "Implication"
  | .maximum => "Maximum"
  | .minimum => "Minimum"

/-- Whether the empty formula on the left is the identity of the connective. -/
def hasLeftIdentity : Connective → Bool
  | .strongDisjunction | .maximum | .minimum => true
  | .strongConjunction | .equivalence | .implication => false

end Connective

/-- One entry of a formula. -/
inductive Subformula where
  /-- The strong disjunction of literals; a negative literal stands for the negated variable. -/
  | clause (literals : List Int)
  | negation (operand : Nat)
  | binary (connective : Connective) (left right : Nat)
  deriving Repr, DecidableEq

/-- A subformula that refers to a place where no earlier subformula stands. -/
structure Dangling where
  operand : Nat
  deriving Repr, DecidableEq

/-- A formula as a list of subformulas, the last of which is the whole. -/
structure Formula where
  units : List Subformula
  deriving Repr, DecidableEq

namespace Subformula

/-- The subformula with every place it refers to moved up by `offset`. -/
def shifted (offset : Nat) : Subformula → Subformula
  | .clause literals => .clause literals
  | .negation operand => .negation (operand + offset)
  | .binary connective left right => .binary connective (left + offset) (right + offset)

variable {α : Type} [Scalar α]

/-- The truth degree of a literal. The variable is the magnitude of the literal, counted within the
range of variables. -/
def literalDegree (valuation : Nat → α) (literal : Int) : α :=
  let value := valuation (literal.natAbs % (variableMax + 1))
  if literal < 0 then 1 - value else value

def operandDegree (degrees : Array α) (operand : Nat) : Except Dangling α :=
  match degrees[operand]? with
  | some degree => pure degree
  | none => throw ⟨operand⟩

/-- The truth degree of a subformula from those of the earlier ones. -/
def degree (valuation : Nat → α) (degrees : Array α) : Subformula → Except Dangling α
  | .clause literals =>
    pure (Scalar.smaller (Scalar.sum (literals.map (literalDegree valuation))) 1)
  | .negation operand => do
    let value ← operandDegree degrees operand
    pure (1 - value)
  | .binary connective left right => do
    let leftValue ← operandDegree degrees left
    let rightValue ← operandDegree degrees right
    pure (connective.apply leftValue rightValue)

def maxVariable : Subformula → Option Nat
  | .clause literals => (literals.map Int.natAbs).max?
  | .negation _ | .binary _ _ _ => none

end Subformula

namespace Formula

def empty : Formula := ⟨[]⟩

/-- The strong disjunction of literals. -/
def clause (literals : List Int) : Formula := ⟨[.clause literals]⟩

def literal (literal : Int) : Formula := clause [literal]

def atom (index : Nat) : Formula := literal index

def isEmpty (formula : Formula) : Bool := formula.units.isEmpty

def size (formula : Formula) : Nat := formula.units.length

/-- The place of the last subformula. -/
def root? (formula : Formula) : Option Nat :=
  if formula.isEmpty then none else some (formula.size - 1)

/-- The negation of a formula; the empty formula has none and stays. -/
def negate (formula : Formula) : Formula :=
  match formula.root? with
  | none => formula
  | some root => ⟨formula.units ++ [.negation root]⟩

/-- Two non-empty formulas under a connective: the units of both and one that joins their roots. -/
def join (left : Formula) (connective : Connective) (right : Formula) : Formula :=
  ⟨left.units ++ right.units.map (.shifted left.size) ++
    [.binary connective (left.size - 1) (left.size + right.size - 1)]⟩

/-- A formula combined with another under a connective. An empty right side changes nothing; an empty
left side gives the right one where it is the connective's identity and stays empty otherwise; the
strong disjunction of two single clauses is one longer clause. -/
def push (left : Formula) (connective : Connective) (right : Formula) : Formula :=
  if right.isEmpty then left
  else if left.isEmpty then
    if connective.hasLeftIdentity then right else left
  else
    match connective, left.units, right.units with
    | .strongDisjunction, [.clause mine], [.clause theirs] => clause (mine ++ theirs)
    | _, _, _ => left.join connective right

def equivalent (left right : Formula) : Formula :=
  left.push .equivalence right

/-- The largest variable that any clause mentions, if it lies within the range of variables. -/
def maxVariable (formula : Formula) : Option Nat := do
  let largest ← (formula.units.filterMap Subformula.maxVariable).max?
  if largest ≤ variableMax then some largest else none

/-- The truth degrees of all subformulas under a valuation, in order. -/
def degrees {α : Type} [Scalar α] (formula : Formula) (valuation : Nat → α) :
    Except Dangling (Array α) :=
  formula.units.foldlM (fun known unit => do
    let degree ← unit.degree valuation known
    pure (known.push degree)) #[]

/-- The truth degree of a formula under a valuation; the empty formula has none. -/
def evaluate {α : Type} [Scalar α] (formula : Formula) (valuation : Nat → α) :
    Except Dangling (Option α) := do
  let degrees ← formula.degrees valuation
  pure degrees.back?

end Formula

end ReluLogic
