import ReluLogic.Error
import ReluLogic.Region

/-!
Linear programs over the unit input box. Every geometric question of the library is one maximum of an
affine objective over the points of the box that satisfy a list of sign constraints. An `Oracle`
answers that question and states its slack; the other questions are derived from it.
-/

namespace ReluLogic

/-- An affine form held to one side of zero. -/
structure Constraint (α : Type) where
  form : Affine α
  sign : Sign
  deriving Repr, DecidableEq

/-- The answer to a linear program. -/
inductive Outcome (α : Type) where
  /-- The largest value of the objective on a non-empty region. -/
  | optimal (value : α)
  /-- No point of the box satisfies the constraints. -/
  | infeasible
  deriving Repr, DecidableEq

/-- Where a form lies relative to a region. -/
inductive Position where
  /-- Non-positive on the region: the gate is closed. -/
  | under
  /-- Of both signs on the region: both states of the gate occur. -/
  | cutting
  /-- Non-negative on the region: the gate is open. -/
  | over
  deriving Repr, DecidableEq

/-- A solver of linear programs over the unit box. -/
structure Oracle (α : Type) where
  /-- The largest value of an objective under constraints. -/
  maximize : Affine α → List (Constraint α) → Except Error (Outcome α)
  /-- The slack used when an optimum is compared with zero. -/
  tolerance : α

namespace Outcome

variable {α : Type} [Scalar α]

def negate : Outcome α → Outcome α
  | .optimal value => .optimal (-value)
  | .infeasible => .infeasible

def isOptimal : Outcome α → Bool
  | .optimal _ => true
  | .infeasible => false

end Outcome

/-- The position of a form with the given extremes, up to a tolerance. A form that stays at zero counts
as open. -/
def Position.ofExtremes {α : Type} [Scalar α] (tolerance least greatest : α) : Position :=
  if -tolerance ≤ least then .over
  else if greatest ≤ tolerance then .under
  else .cutting

namespace Oracle

variable {α : Type} [Scalar α]

def minimize (oracle : Oracle α) (objective : Affine α) (constraints : List (Constraint α)) :
    Except Error (Outcome α) :=
  (oracle.maximize objective.negate constraints).map Outcome.negate

def isFeasible (oracle : Oracle α) (dim : Nat) (constraints : List (Constraint α)) :
    Except Error Bool :=
  (oracle.maximize (Affine.zero dim) constraints).map Outcome.isOptimal

/-- The position of a form relative to a region, which has to be non-empty. -/
def position (oracle : Oracle α) (form : Affine α) (constraints : List (Constraint α)) :
    Except Error Position := do
  let least ← oracle.minimize form constraints
  let greatest ← oracle.maximize form constraints
  match least, greatest with
  | .optimal low, .optimal high => pure (Position.ofExtremes oracle.tolerance low high)
  | _, _ => throw (.infeasibleSearch .emptyGateRegion)

/-- The oracle for which every region is empty. -/
def empty : Oracle α where
  maximize _ _ := pure .infeasible
  tolerance := Scalar.ofInt 1 / Scalar.ofInt 1000000000

end Oracle

/-- The constraint that a boundary stands for. -/
def Boundary.resolve {α : Type} (prototypes : List (Affine α)) (boundary : Boundary) :
    Except Error (Constraint α) :=
  match prototypes[boundary.index]? with
  | some form => pure ⟨form, boundary.sign⟩
  | none => throw (.invalidBoundary boundary.index prototypes.length)

def regionConstraints {α : Type} (prototypes : List (Affine α)) (region : List Boundary) :
    Except Error (List (Constraint α)) :=
  region.mapM (·.resolve prototypes)

end ReluLogic
