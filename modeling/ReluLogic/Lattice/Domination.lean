import ReluLogic.LinearProgram.Basic

/-!
Comparison of pieces on each other's regions. A piece `k` is above a piece `i` when it is at least as
large everywhere on the region of `i`, and below it when it is at most as large there, up to a tolerance.
The lattice covering asks for every ordered pair `(i, j)` a piece that is below `i` and above `j`.
-/

namespace ReluLogic

/-- The comparisons of all pieces: row `i` belongs to the region of piece `i`. -/
structure DominationTable where
  /-- Whether a piece is above the row's piece. -/
  above : List (List Bool)
  /-- Whether a piece is below the row's piece. -/
  below : List (List Bool)
  deriving Repr, DecidableEq

namespace DominationTable

def size (table : DominationTable) : Nat :=
  table.above.length

/-- Whether piece `k` is above piece `i` on the region of `i`. -/
def isAbove (table : DominationTable) (i k : Nat) : Bool :=
  (table.above.getD i []).getD k false

/-- Whether piece `k` is below piece `i` on the region of `i`. -/
def isBelow (table : DominationTable) (i k : Nat) : Bool :=
  (table.below.getD i []).getD k false

/-- The first piece that is below `i` and above `j`. -/
def coveringWitness? (table : DominationTable) (i j : Nat) : Option Nat :=
  (List.range table.size).find? fun k => table.isBelow i k && table.isAbove j k

/-- The ordered pairs of different pieces without a covering witness, in order. -/
def violations (table : DominationTable) : List (Nat × Nat) :=
  (List.range table.size).flatMap fun i =>
    ((List.range table.size).filter fun j =>
      i != j && (table.coveringWitness? i j).isNone).map fun j => (i, j)

end DominationTable

/-- Pieces over shared prototypes, with the oracle and the tolerance that they are compared by. -/
structure PieceFamily (α : Type) where
  prototypes : List (Affine α)
  pieces : List Piece
  oracle : Oracle α
  tolerance : α

namespace PieceFamily

variable {α : Type} [Scalar α]

/-- The largest value of one piece less another on a region, which is that of the piece at place
`index`. -/
def maxDifference (family : PieceFamily α) (index : Nat) (region : List Boundary)
    (minuend subtrahend : Piece) : Except Error α := do
  let constraints ← regionConstraints family.prototypes region
  match ← family.oracle.maximize (minuend.form.difference subtrahend.form) constraints with
  | .optimal value => pure value
  | .infeasible => throw (.infeasibleSearch (.emptyPieceRegion index))

/-- Whether the largest difference of two pieces on the region of a third stays within the tolerance. -/
def isAtMost (family : PieceFamily α) (index : Nat) (region : List Boundary)
    (minuend subtrahend : Piece) : Except Error Bool := do
  let value ← family.maxDifference index region minuend subtrahend
  pure (decide (value ≤ family.tolerance))

def aboveRow (family : PieceFamily α) (piece : Piece) (i : Nat) : Except Error (List Bool) :=
  family.pieces.zipIdx.mapM fun (other, k) =>
    if i = k then pure true else family.isAtMost i piece.region piece other

def belowRow (family : PieceFamily α) (piece : Piece) (i : Nat) : Except Error (List Bool) :=
  family.pieces.zipIdx.mapM fun (other, k) =>
    if i = k then pure true else family.isAtMost i piece.region other piece

def rows (family : PieceFamily α) (piece : Piece) (i : Nat) :
    Except Error (List Bool × List Bool) := do
  let above ← family.aboveRow piece i
  let below ← family.belowRow piece i
  pure (above, below)

def dominationTable (family : PieceFamily α) : Except Error DominationTable := do
  let rows ← family.pieces.zipIdx.mapM fun (piece, i) => family.rows piece i
  pure ⟨rows.map (·.1), rows.map (·.2)⟩

/-- Whether every ordered pair of pieces is covered. -/
def hasLatticeProperty (family : PieceFamily α) : Except Error Bool := do
  pure (← family.dominationTable).violations.isEmpty

def violationCount (family : PieceFamily α) : Except Error Nat := do
  pure (← family.dominationTable).violations.length

/-- The comparisons of all pieces, if every ordered pair is covered. -/
def checkLatticeProperty (family : PieceFamily α) : Except Error DominationTable := do
  let table ← family.dominationTable
  match table.violations.head? with
  | some (first, second) => throw (.latticeViolation first second)
  | none => pure table

end PieceFamily

end ReluLogic
