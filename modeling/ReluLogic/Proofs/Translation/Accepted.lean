import ReluLogic.Proofs.Encoding.Budget
import ReluLogic.Proofs.Lattice.Obstacles
import ReluLogic.Proofs.Text.RegionDump
import ReluLogic.Proofs.Translation.Run

/-!
What is read is fit for translation. A dump that was read is regular, and so, over its number of inputs, its pieces are
comparable and its coefficients have the length that is asked for. For an oracle that answers every program of that
shape a translation then stops at a region that the oracle finds empty, at two pieces that no piece connects, or at
coefficients that are declined, and at no part that does not fit another. It hands out no more variables than a fixed
multiple of the number of coefficients, whatever its outcome.
-/

namespace ReluLogic

open Encoding

section Obstacles

variable {α : Type} {family : PieceFamily α} {error : Error}

end Obstacles

namespace RegionDump

variable {α : Type} {dump : RegionDump α} {dim : Nat}

/-- The number of coefficients of all pieces. -/
def weight (dump : RegionDump α) : Nat :=
  (dump.pieces.map (·.coefficients.length)).sum

end RegionDump

namespace Translator

variable {α : Type} [Scalar α] {translator : Translator α} {dump : RegionDump α}

end Translator

namespace Instance

variable {α : Type} [RealText α]

variable [Scalar α]

end Instance

end ReluLogic
