import ReluLogic.LinearProgram.Basic

/-!
The simplex tableau. Columns are the structural variables, then one slack per row, then one artificial
variable for each row whose bound is negative; rows are the constraints and after them the upper faces
of the box. Every operation gives a new tableau, entry by entry, and a step of the method is a value:
either the optimum is reached, or the objective is unbounded, or there is a next tableau.
-/

namespace ReluLogic

/-- The inequality that the inner product of `coefficients` with a point is at most `bound`. -/
structure Inequality (α : Type) where
  coefficients : List α
  bound : α
  deriving Repr, DecidableEq

/-- Rows of coefficients with their bounds, and the basic column of each row. -/
structure Tableau (α : Type) (rows columns : Nat) where
  entries : Vector (Vector α columns) rows
  bounds : Vector α rows
  basis : Vector (Fin columns) rows

namespace Inequality

variable {α : Type} [Scalar α]

/-- A sign constraint as an upper bound on its linear part. -/
def ofConstraint (constraint : Constraint α) : Inequality α :=
  match constraint.sign with
  | .geq => ⟨constraint.form.linear.map (-·), constraint.form.constant⟩
  | .leq => ⟨constraint.form.linear, -constraint.form.constant⟩

/-- The upper faces of the unit box over `dim` inputs. -/
def box (dim : Nat) : List (Inequality α) :=
  (List.range dim).map fun input =>
    ⟨(List.range dim).map fun other => if other = input then 1 else 0, 1⟩

/-- The inequalities of a linear program over the unit box. -/
def ofProgram (dim : Nat) (constraints : List (Constraint α)) : List (Inequality α) :=
  constraints.map ofConstraint ++ box dim

def cutsOrigin (inequality : Inequality α) : Bool :=
  inequality.bound < 0

/-- The number of inequalities that the origin violates. -/
def artificials (inequalities : List (Inequality α)) : Nat :=
  inequalities.countP cutsOrigin

/-- The number of inequalities before place `row` that the origin violates. -/
def artificialRank (inequalities : List (Inequality α)) (row : Nat) : Nat :=
  (inequalities.take row).countP cutsOrigin

theorem artificialRank_lt (inequalities : List (Inequality α)) (row : Nat)
    (h : row < inequalities.length) (hcut : inequalities[row].cutsOrigin = true) :
    artificialRank inequalities row < artificials inequalities := by
  have hsplit : inequalities =
      inequalities.take row ++ inequalities[row] :: inequalities.drop (row + 1) := by
    rw [← List.drop_eq_getElem_cons h, List.take_append_drop]
  have hcount : artificials inequalities =
      artificialRank inequalities row + ((inequalities.drop (row + 1)).countP cutsOrigin + 1) := by
    conv => lhs; rw [artificials, hsplit]
    rw [List.countP_append, List.countP_cons_of_pos hcut, artificialRank]
  omega

end Inequality

namespace Tableau

variable {α : Type} [Scalar α]

section Build

variable (dim : Nat) (inequalities : List (Inequality α))

/-- The number of columns before the artificial ones. -/
abbrev ordinary : Nat := dim + inequalities.length

abbrev width : Nat := ordinary dim inequalities + Inequality.artificials inequalities

/-- The entry of a row at a column before its sign is settled: the coefficients of the inequality and
a one for its slack. -/
def slackEntry (row : Nat) (inequality : Inequality α) (column : Nat) : α :=
  if column < dim then inequality.coefficients.getD column 0
  else if column = dim + row then 1
  else 0

/-- The entry of a row at a column. A row with a negative bound is negated and gets a one in its
artificial column. -/
def initialEntry (row : Fin inequalities.length) (column : Nat) : α :=
  let inequality := inequalities[row]
  if inequality.cutsOrigin then
    if column = ordinary dim inequalities + Inequality.artificialRank inequalities row then 1
    else -slackEntry dim row inequality column
  else slackEntry dim row inequality column

/-- The bound of a row, made non-negative. -/
def initialBound (row : Fin inequalities.length) : α :=
  let inequality := inequalities[row]
  if inequality.cutsOrigin then -inequality.bound else inequality.bound

/-- The first basic column of a row: its artificial column if it has one, otherwise its slack. -/
def initialBasis (row : Fin inequalities.length) : Fin (width dim inequalities) :=
  if h : inequalities[row].cutsOrigin = true then
    ⟨ordinary dim inequalities + Inequality.artificialRank inequalities row, by
      have := Inequality.artificialRank_lt inequalities row row.isLt h
      simp only [width]; omega⟩
  else
    ⟨dim + row, by have := row.isLt; simp only [width, ordinary]; omega⟩

/-- The tableau that a list of inequalities starts from. -/
def build : Tableau α inequalities.length (width dim inequalities) where
  entries := Vector.ofFn fun row => Vector.ofFn fun column => initialEntry dim inequalities row column
  bounds := Vector.ofFn fun row => initialBound inequalities row
  basis := Vector.ofFn fun row => initialBasis dim inequalities row

end Build

variable {rows columns : Nat}

/-- The sum over the rows of the cost of the basic column times `value` of the row. -/
@[specialize]
def basicSum (tableau : Tableau α rows columns) (costs : Vector α columns) (value : Fin rows → α) :
    α :=
  Scalar.sum ((List.finRange rows).map fun row => costs[tableau.basis[row]] * value row)

/-- What the objective gains per unit of a column; zero for a basic column. -/
@[specialize]
def reducedCost (tableau : Tableau α rows columns) (costs : Vector α columns)
    (column : Fin columns) : α :=
  if tableau.basis.contains column then 0
  else costs[column] - tableau.basicSum costs fun row => tableau.entries[row][column]

@[specialize]
def objectiveValue (tableau : Tableau α rows columns) (costs : Vector α columns) : α :=
  tableau.basicSum costs fun row => tableau.bounds[row]

/-- The first column below `allowed` whose gain exceeds the tolerance. -/
@[specialize]
def entering? (tableau : Tableau α rows columns) (costs : Vector α columns) (allowed : Nat)
    (tolerance : α) : Option (Fin columns) :=
  (List.finRange columns).find? fun column =>
    decide (column.val < allowed) && decide (tolerance < tableau.reducedCost costs column)

/-- A row and the ratio of its bound to its entry in the entering column. -/
abbrev Candidate (α : Type) (rows : Nat) := Fin rows × α

/-- The better candidate to leave the basis: the smaller ratio, and among ratios within the tolerance
the smaller basic column. -/
@[specialize]
def preferred (tableau : Tableau α rows columns) (tolerance : α) (best next : Candidate α rows) :
    Candidate α rows :=
  if next.2 < best.2 - tolerance then next
  else if next.2 ≤ best.2 + tolerance && tableau.basis[next.1] < tableau.basis[best.1] then next
  else best

/-- The best candidate once a further row is seen. A row whose entry in the entering column is not above
the tolerance is none. -/
@[specialize]
def improve (tableau : Tableau α rows columns) (tolerance : α) (column : Fin columns)
    (best : Option (Candidate α rows)) (row : Fin rows) : Option (Candidate α rows) :=
  let entry := tableau.entries[row][column]
  if entry ≤ tolerance then best
  else
    let next : Candidate α rows := (row, tableau.bounds[row] / entry)
    match best with
    | none => some next
    | some held => some (tableau.preferred tolerance held next)

/-- The row that leaves the basis, among those with an entry above the tolerance in the entering
column. -/
@[specialize]
def leaving? (tableau : Tableau α rows columns) (tolerance : α) (column : Fin columns) :
    Option (Fin rows) :=
  ((List.finRange rows).foldl (tableau.improve tolerance column) none).map (·.1)

/-- The tableau in which `column` is basic for `row`: the row is divided by its entry there, and its
multiples are taken from all rows with another entry than zero there. -/
@[specialize]
def pivot (tableau : Tableau α rows columns) (row : Fin rows) (column : Fin columns) :
    Tableau α rows columns :=
  let divisor := tableau.entries[row][column]
  let pivotRow := tableau.entries[row].map (· / divisor)
  let pivotBound := tableau.bounds[row] / divisor
  { entries := Vector.ofFn fun other =>
      if other = row then pivotRow
      else
        let factor := tableau.entries[other][column]
        if factor == 0 then tableau.entries[other]
        else Vector.zipWith (fun entry p => entry - factor * p) tableau.entries[other] pivotRow
    bounds := Vector.ofFn fun other =>
      if other = row then pivotBound
      else
        let factor := tableau.entries[other][column]
        if factor == 0 then tableau.bounds[other] else tableau.bounds[other] - factor * pivotBound
    basis := tableau.basis.set row column }

/-- What one round of the method finds. -/
inductive Step (α : Type) (rows columns : Nat) where
  /-- No column gains. -/
  | optimal
  /-- A column gains and no row limits it. -/
  | unbounded
  /-- A column enters the basis. -/
  | pivoted (next : Tableau α rows columns)

/-- One round of the method with the first gaining column. -/
@[specialize]
def step (tableau : Tableau α rows columns) (costs : Vector α columns) (allowed : Nat)
    (tolerance : α) : Step α rows columns :=
  match tableau.entering? costs allowed tolerance with
  | none => .optimal
  | some column =>
    match tableau.leaving? tolerance column with
    | none => .unbounded
    | some row => .pivoted (tableau.pivot row column)

/-- Steps until the optimum, at most as many as `fuel` says; reaching the optimum takes a round of its
own. `budget` is the number that the error reports. -/
@[specialize]
def optimize (costs : Vector α columns) (allowed : Nat) (tolerance : α) (budget : Nat) :
    Nat → Tableau α rows columns → Except Error (Tableau α rows columns)
  | 0, _ => throw (.solver (.pivotsExhausted budget))
  | fuel + 1, tableau =>
    match tableau.step costs allowed tolerance with
    | .optimal => pure tableau
    | .unbounded => throw (.solver .unbounded)
    | .pivoted next => optimize costs allowed tolerance budget fuel next

/-- The first column below `first` with an entry in `row` that differs from zero by more than the
tolerance. -/
@[specialize]
def replacement? (tableau : Tableau α rows columns) (first : Nat) (tolerance : α) (row : Fin rows) :
    Option (Fin columns) :=
  (List.finRange columns).find? fun column =>
    decide (column.val < first) &&
      decide (tolerance < Scalar.magnitude tableau.entries[row][column])

/-- The tableau with the basic column of `row` exchanged for an ordinary one, if it is artificial and
an ordinary one can take its place. Columns from `first` on are artificial. -/
@[specialize]
def evictRow (first : Nat) (tolerance : α) (tableau : Tableau α rows columns) (row : Fin rows) :
    Tableau α rows columns :=
  if tableau.basis[row] < first then tableau
  else
    match tableau.replacement? first tolerance row with
    | none => tableau
    | some column => tableau.pivot row column

/-- The tableau with artificial columns exchanged for ordinary ones, row by row. -/
@[specialize]
def evictArtificials (tableau : Tableau α rows columns) (first : Nat) (tolerance : α) :
    Tableau α rows columns :=
  (List.finRange rows).foldl (evictRow first tolerance) tableau

end Tableau

end ReluLogic
