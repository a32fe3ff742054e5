import ReluLogic.Decomposition.Basic
import ReluLogic.LinearProgram.Basic
import ReluLogic.Network

/-!
Depth-first search for the regions on which a network is affine. The nodes of a layer become prototypes:
affine forms of the network's inputs under the gates resolved so far. A gate whose form keeps one sign on
the current region is resolved by that sign; a gate that is cut is resolved both ways, first open and then
closed, and a way that the oracle finds empty is left. At the last layer each requested output cuts the
region into the parts where it is at most zero, between zero and one, and at least one.
-/

namespace ReluLogic

/-- A node of a layer under classification: its form, its place among the prototypes, and where it lies
relative to the region. -/
structure Gate (α : Type) where
  form : Affine α
  index : Nat
  position : Position
  deriving Repr, DecidableEq

namespace Gate

variable {α : Type} [Scalar α]

/-- The value behind the gate when its form has the given sign. -/
def output (gate : Gate α) : Sign → Affine α
  | .geq => gate.form
  | .leq => .zero gate.form.dim

def boundary (gate : Gate α) (sign : Sign) : Boundary :=
  ⟨gate.index, sign⟩

/-- Whether both signs of the gate have to be tried. -/
def isCut (gate : Gate α) : Bool :=
  gate.position == .cutting

end Gate

/-- What a search needs to know besides the layers. -/
structure Search (α : Type) where
  oracle : Oracle α
  /-- The number of inputs of the network. -/
  dim : Nat
  /-- The requested outputs. -/
  outputs : List Nat

namespace Search

variable {α : Type} [Scalar α]

def isFeasible (search : Search α) (prototypes : List (Affine α)) (region : List Boundary) :
    Except Error Bool := do
  search.oracle.isFeasible search.dim (← regionConstraints prototypes region)

/-- The search needs a non-empty input box. -/
def ensureBox (search : Search α) : Except Error Unit := do
  if ← search.oracle.isFeasible search.dim [] then pure ()
  else throw (.infeasibleSearch .emptyBox)

/-- The form of a node over the inputs of the network, from the forms of the values that it reads. -/
def compose (dim : Nat) (values : List (Affine α)) (node : Node α) : Affine α :=
  ⟨(values.zip node.weights).foldl
    (fun total (value, weight) =>
      List.zipWith (fun c v => c + v * weight) total value.coefficients)
    (node.bias :: List.replicate dim 0)⟩

/-- The gates of a layer whose prototypes stand from place `first` on. -/
def classify (search : Search α) (prototypes forms : List (Affine α)) (region : List Boundary)
    (first : Nat) : Except Error (List (Gate α)) := do
  let constraints ← regionConstraints prototypes region
  let positions ← forms.mapM fun form => search.oracle.position form constraints
  pure ((forms.zip positions).mapIdx fun i (form, position) => ⟨form, first + i, position⟩)

/-- Resolves gates in order and calls `leaf` with the values behind them on every region that is not
found empty. A cut gate is tried open, then closed. -/
def branch (search : Search α)
    (leaf : List (Affine α) → List Boundary → Partition α → Except Error (Partition α)) :
    List (Gate α) → List (Affine α) → List Boundary → Partition α → Except Error (Partition α)
  | [], values, region, state => leaf values region state
  | gate :: rest, values, region, state =>
    match gate.position with
    | .over => branch search leaf rest (values ++ [gate.output .geq]) region state
    | .under => branch search leaf rest (values ++ [gate.output .leq]) region state
    | .cutting => do
      let half (sign : Sign) (state : Partition α) : Except Error (Partition α) := do
        let narrowed := region ++ [gate.boundary sign]
        if ← search.isFeasible state.prototypes narrowed then
          branch search leaf rest (values ++ [gate.output sign]) narrowed state
        else
          pure state
      half .leq (← half .geq state)

/-- The parts that an output cuts a region into: at most zero, affine, at least one. `raw` is the place of
the output's form and `upper` that of the form less one. -/
def candidates (dim : Nat) (form : Affine α) (region : List Boundary) (raw upper : Nat) : List Piece :=
  [ .zero dim (region ++ [.leq raw]),
    ⟨form.coefficients.map Fraction.ofDecimal, region ++ [.geq raw, .leq upper]⟩,
    .one dim (region ++ [.geq upper]) ]

def keepFeasible (search : Search α) (prototypes : List (Affine α)) :
    List Piece → Except Error (List Piece)
  | [] => pure []
  | piece :: rest => do
    let feasible ← search.isFeasible prototypes piece.region
    let others ← keepFeasible search prototypes rest
    pure (if feasible then piece :: others else others)

/-- The pieces of the given outputs on a region. `forms` are the forms of the last layer, with prototypes
from place `first` on; the prototype of each output less one is put behind the others. -/
def emit (search : Search α) (forms : List (Affine α)) (first : Nat) (region : List Boundary) :
    List Nat → List (Affine α) → Except Error (List (Affine α) × List (List Piece))
  | [], prototypes => pure (prototypes, [])
  | output :: rest, prototypes => do
    let form := forms.getD output (.zero search.dim)
    let extended := prototypes ++ [form.minusOne]
    let pieces ← search.keepFeasible extended
      (candidates search.dim form region (first + output) prototypes.length)
    let (final, others) ← emit search forms first region rest extended
    pure (final, pieces :: others)

/-- Searches a region from the layer with the given forms on; `rest` are the layers behind it. -/
def descend (search : Search α) :
    List (Layer α) → List (Affine α) → List Boundary → Partition α → Except Error (Partition α)
  | [], forms, region, state => do
    let first := state.prototypes.length
    let (prototypes, pieces) ←
      search.emit forms first region search.outputs (state.prototypes ++ forms)
    pure ⟨prototypes, appendSlots state.pieces pieces⟩
  | layer :: rest, forms, region, state => do
    let first := state.prototypes.length
    let extended : Partition α := { state with prototypes := state.prototypes ++ forms }
    let gates ← search.classify extended.prototypes forms region first
    search.branch
      (fun values narrowed found =>
        descend search rest (layer.map (compose search.dim values)) narrowed found)
      gates [] region extended

end Search

namespace Network

variable {α : Type} [Scalar α]

/-- The outputs that a request stands for: all of them if it is empty. -/
def requestedOutputs (network : Network α) (outputs : List Nat) : Except Error (List Nat) :=
  match outputs.find? fun output => network.outputDim ≤ output with
  | some output => throw (.unknownOutput output network.outputDim)
  | none => pure (if outputs.isEmpty then List.range network.outputDim else outputs)

/-- The search over a network for outputs that it has. -/
def search (network : Network α) (oracle : Oracle α) (outputs : List Nat) : Search α :=
  ⟨oracle, network.inputDim, outputs⟩

/-- The affine forms of the first layer, which are forms of the inputs already. -/
def firstForms (network : Network α) : List (Affine α) :=
  (network.layers.headD []).map Node.form

/-- The decomposition of a network for outputs that it has. -/
def decomposeOutputs (network : Network α) (oracle : Oracle α) (outputs : List Nat) :
    Except Error (Decomposition α) := do
  let search := network.search oracle outputs
  search.ensureBox
  let found ← search.descend network.layers.tail network.firstForms []
    (.start [] outputs.length)
  pure ⟨found.prototypes, outputs, found.pieces⟩

/-- The decomposition of a network for the requested outputs, or for all. -/
def decompose (network : Network α) (oracle : Oracle α) (outputs : List Nat) :
    Except Error (Decomposition α) := do
  network.decomposeOutputs oracle (← network.requestedOutputs outputs)

end Network

end ReluLogic
