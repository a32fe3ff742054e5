import ReluLogic.Formula.Basic
import ReluLogic.Lattice.Domination

/-!
The join of piece formulas. Each piece contributes the minimum of its formula and those of the pieces
above it; the join is the maximum of all contributions. Contributions are joined in chunks, one per
worker, and the chunks in order.
-/

namespace ReluLogic

/-- A list cut into parts of `extra + 1` items, the last of which may be shorter. -/
def chunksOf {β : Type} (extra : Nat) : List β → List (List β)
  | [] => []
  | first :: rest => (first :: rest.take extra) :: chunksOf extra (rest.drop extra)
  termination_by items => items.length
  decreasing_by simp only [List.length_cons, List.length_drop]; omega

/-- The number of chunks' items when `count` items are shared among `threads` workers, less one. -/
def chunkExtra (count threads : Nat) : Nat :=
  let workers := max threads 1
  (count + workers - 1) / workers - 1

namespace Formula

/-- The minimum of the formula at place `i` and those that the row marks, itself apart. -/
def contribution (formulas : List Formula) (formula : Formula) (i : Nat) (above : List Bool) :
    Formula :=
  (above.zip formulas).zipIdx.foldl
    (fun total ((isAbove, other), k) =>
      if isAbove && k != i then total.push .minimum other else total)
    formula

/-- The maximum of formulas, from the left. -/
def maximumOf (formulas : List Formula) : Formula :=
  formulas.foldl (fun total formula => total.push .maximum formula) .empty

/-- The maximum of formulas, taken in chunks. -/
def chunkedMaximum (formulas : List Formula) (threads : Nat) : Formula :=
  maximumOf ((chunksOf (chunkExtra formulas.length threads) formulas).map maximumOf)

end Formula

namespace PieceFamily

variable {α : Type} [Scalar α]

/-- The join of formulas under the rows that `above` gives for each piece. -/
def joinBy (family : PieceFamily α) (formulas : List Formula) (threads : Nat)
    (above : Piece → Nat → Except Error (List Bool)) : Except Error Formula := do
  if formulas.length ≠ family.pieces.length then
    throw (.encoding (.formulaCount formulas.length family.pieces.length))
  else
    let contributions ← (family.pieces.zip formulas).zipIdx.mapM fun ((piece, formula), i) => do
      pure (Formula.contribution formulas formula i (← above piece i))
    pure (Formula.chunkedMaximum contributions threads)

/-- The join of formulas, one per piece, comparing the pieces on the way. -/
def assemble (family : PieceFamily α) (formulas : List Formula) (threads : Nat) :
    Except Error Formula :=
  family.joinBy formulas threads family.aboveRow

/-- The join of formulas, one per piece, by comparisons made before. -/
def assembleWithTable (family : PieceFamily α) (table : DominationTable) (formulas : List Formula)
    (threads : Nat) : Except Error Formula :=
  if table.size ≠ family.pieces.length then
    throw (.encoding (.tableSize table.size family.pieces.length))
  else
    family.joinBy formulas threads fun _ i => pure (table.above.getD i [])

end PieceFamily

end ReluLogic
