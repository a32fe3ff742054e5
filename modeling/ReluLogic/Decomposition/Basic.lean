import ReluLogic.Region

/-!
Results of a region search. A search over a part of the input box gives a `Partition`; partitions that
start from the same base prototypes are merged into one `Decomposition` by moving the references past
the base behind those of the partitions before.
-/

namespace ReluLogic

/-- The prototypes and pieces of one search: a list of pieces for each requested output. -/
structure Partition (α : Type) where
  prototypes : List (Affine α)
  pieces : List (List Piece)
  deriving Repr, DecidableEq

/-- The prototypes and pieces of a whole network. -/
structure Decomposition (α : Type) where
  /-- The list that the regions of all pieces refer to. -/
  prototypes : List (Affine α)
  /-- The requested outputs, in the order of the request. -/
  outputs : List Nat
  /-- The pieces of each requested output. -/
  pieces : List (List Piece)
  deriving Repr, DecidableEq

namespace Decomposition

variable {α : Type}

/-- The first slot of an output, if it was requested. -/
def slot? (decomposition : Decomposition α) (output : Nat) : Option Nat :=
  decomposition.outputs.idxOf? output

/-- The pieces of an output, if it was requested. -/
def piecesFor? (decomposition : Decomposition α) (output : Nat) : Option (List Piece) := do
  decomposition.pieces[← decomposition.slot? output]?

def pieceCount (decomposition : Decomposition α) : Nat :=
  decomposition.pieces.flatten.length

end Decomposition

/-- A boundary with its reference moved up by `offset`, unless it points into the first `base`
prototypes. -/
def Boundary.rebase (base offset : Nat) (boundary : Boundary) : Boundary :=
  if base ≤ boundary.index then { boundary with index := boundary.index + offset } else boundary

def Piece.rebase (base offset : Nat) (piece : Piece) : Piece :=
  { piece with region := piece.region.map (.rebase base offset) }

/-- Lists of pieces with further ones put behind them, slot by slot. Slots that the left side does not
have are left out. -/
def appendSlots : List (List Piece) → List (List Piece) → List (List Piece)
  | [], _ => []
  | slots, [] => slots
  | held :: rest, more :: others => (held ++ more) :: appendSlots rest others

namespace Partition

variable {α : Type}

def start (prototypes : List (Affine α)) (slots : Nat) : Partition α :=
  ⟨prototypes, List.replicate slots []⟩

/-- Whether all pieces lie in the first `slots` slots. -/
def fits (slots : Nat) (partition : Partition α) : Bool :=
  (partition.pieces.drop slots).all List.isEmpty

/-- A merged partition with one more put behind it. Both start with the same `base` prototypes. -/
def absorb (base : Nat) (merged next : Partition α) : Partition α :=
  let offset := merged.prototypes.length - base
  { prototypes := merged.prototypes ++ next.prototypes.drop base
    pieces := appendSlots merged.pieces (next.pieces.map (·.map (.rebase base offset))) }

end Partition

/-- The decomposition that partitions over the same base prototypes add up to. Every partition has to fit
the outputs. -/
def mergePartitions {α : Type} (base : List (Affine α)) (partitions : List (Partition α))
    (outputs : List Nat) : Decomposition α :=
  let merged := partitions.foldl (Partition.absorb base.length) (.start base outputs.length)
  ⟨merged.prototypes, outputs, merged.pieces⟩

end ReluLogic
