import ReluLogic.LinearProgram.Tableau

/-!
The two-phase simplex method as an oracle. Phase one maximizes minus the sum of the artificial
variables; a maximum below zero means that no point satisfies the constraints. Phase two maximizes the
objective over the ordinary columns alone.
-/

namespace ReluLogic

/-- Settings of the simplex method. -/
structure Simplex (α : Type) where
  /-- The slack of every comparison. -/
  tolerance : α
  /-- The number of rounds that each phase may take. -/
  maxPivots : Nat
  deriving Repr, DecidableEq

namespace Simplex

variable {α : Type} [Scalar α]

/-- The method with a given slack and fifty thousand rounds for each phase. -/
def ofTolerance (tolerance : α) : Simplex α := ⟨tolerance, 50000⟩

/-- Minus one for every column from `first` on. -/
def phaseOneCosts (columns first : Nat) : Vector α columns :=
  Vector.ofFn fun column => if column.val < first then 0 else -1

/-- The objective's coefficients for the structural columns. -/
def phaseTwoCosts (columns : Nat) (linear : List α) : Vector α columns :=
  Vector.ofFn fun column => linear.getD column 0

/-- A tableau whose basic solution satisfies all inequalities, or none if there is no such solution. -/
@[specialize]
def phaseOne (simplex : Simplex α) (dim : Nat) (inequalities : List (Inequality α)) :
    Except Error (Option (Tableau α inequalities.length (Tableau.width dim inequalities))) :=
  let start := Tableau.build dim inequalities
  if Inequality.artificials inequalities = 0 then pure (some start)
  else do
    let first := Tableau.ordinary dim inequalities
    let columns := Tableau.width dim inequalities
    let costs := phaseOneCosts columns first
    let final ← Tableau.optimize costs columns simplex.tolerance simplex.maxPivots
      simplex.maxPivots start
    if final.objectiveValue costs < -simplex.tolerance then pure none
    else pure (some (final.evictArtificials first simplex.tolerance))

/-- The largest value of the linear part of an objective under inequalities. -/
@[specialize]
def solve (simplex : Simplex α) (constant : α) (linear : List α)
    (inequalities : List (Inequality α)) : Except Error (Outcome α) := do
  let dim := linear.length
  match ← simplex.phaseOne dim inequalities with
  | none => pure .infeasible
  | some start =>
    let costs := phaseTwoCosts (Tableau.width dim inequalities) linear
    let final ← Tableau.optimize costs (Tableau.ordinary dim inequalities) simplex.tolerance
      simplex.maxPivots simplex.maxPivots start
    pure (.optimal (constant + final.objectiveValue costs))

/-- The largest value of an objective over the points of the box that satisfy the constraints. All
forms need as many coefficients as the objective. -/
@[specialize]
def maximize (simplex : Simplex α) (objective : Affine α) (constraints : List (Constraint α)) :
    Except Error (Outcome α) :=
  match objective.coefficients with
  | [] => throw (.solver .noConstantTerm)
  | constant :: linear =>
    match constraints.find? fun c => c.form.coefficients.length != linear.length + 1 with
    | some bad =>
      throw (.solver (.lengthMismatch bad.form.coefficients.length (linear.length + 1)))
    | none => simplex.solve constant linear (Inequality.ofProgram linear.length constraints)

@[specialize]
def oracle (simplex : Simplex α) : Oracle α where
  maximize := simplex.maximize
  tolerance := simplex.tolerance

end Simplex

end ReluLogic
