import ReluLogic.Affine
import ReluLogic.Error

/-!
Feed-forward networks. A layer is a list of nodes, each an affine value of the layer before it; every
layer except the last is followed by a gate that cuts negative values off at zero. A `Network` carries
the fact that its layers passed `Network.check`.
-/

namespace ReluLogic

/-- A neuron: a bias and one weight per value of the layer before it. -/
structure Node (α : Type) where
  bias : α
  weights : List α
  deriving Repr, DecidableEq

namespace Node

variable {α : Type} [Scalar α]

/-- The value of a node before any gate. -/
def evaluate (node : Node α) (inputs : List α) : α :=
  node.bias + Scalar.dot node.weights inputs

def isFinite (node : Node α) : Bool :=
  Scalar.isFinite node.bias && node.weights.all Scalar.isFinite

/-- The node as an affine form of the values it reads. -/
def form (node : Node α) : Affine α :=
  ⟨node.bias :: node.weights⟩

end Node

/-- The nodes of one layer, in order. -/
abbrev Layer (α : Type) := List (Node α)

namespace Network

variable {α : Type} [Scalar α]

/-- A node has `expected` weights, and all its numbers are finite. -/
def checkNode (layer expected index : Nat) (node : Node α) : Except Error Unit :=
  if node.weights.length ≠ expected then
    throw (.malformedNetwork (.weightCount index layer node.weights.length expected))
  else if !node.isFinite then
    throw (.malformedNetwork (.nonFinite index layer))
  else
    pure ()

/-- The nodes of a layer from place `index` on. -/
def checkNodes (layer expected : Nat) : Nat → List (Node α) → Except Error Unit
  | _, [] => pure ()
  | index, node :: rest => do
    checkNode layer expected index node
    checkNodes layer expected (index + 1) rest

/-- Layers from number `layer` on: none is empty, and each node has one weight per value of the layer
before it. -/
def checkLayers : Nat → Nat → List (Layer α) → Except Error Unit
  | _, _, [] => pure ()
  | layer, expected, nodes :: rest => do
    if nodes.isEmpty then
      throw (.malformedNetwork (.emptyLayer layer))
    checkNodes layer expected 0 nodes
    checkLayers (layer + 1) nodes.length rest

/-- The number of inputs that the first node of the first layer reads. -/
def inputsOf (layers : List (Layer α)) : Nat :=
  match layers with
  | (node :: _) :: _ => node.weights.length
  | _ => 0

/-- Layers form a network when there is a first node with at least one input and all layers fit one
another. -/
def check (layers : List (Layer α)) : Except Error Unit :=
  match layers with
  | [] => throw (.malformedNetwork .noLayers)
  | [] :: _ => throw (.malformedNetwork (.emptyLayer 0))
  | (node :: _) :: _ =>
    if node.weights.isEmpty then
      throw (.malformedNetwork .noInputs)
    else
      checkLayers 0 node.weights.length layers

end Network

/-- A network whose layers fit one another. -/
structure Network (α : Type) [Scalar α] where
  layers : List (Layer α)
  /-- The layers passed the check. -/
  checked : Network.check layers = .ok ()

namespace Network

variable {α : Type} [Scalar α]

def ofLayers (layers : List (Layer α)) : Except Error (Network α) :=
  match h : check layers with
  | .ok () => .ok ⟨layers, h⟩
  | .error fault => .error fault

/-- A node from a row of a bias followed by its weights. -/
def nodeOfRow (layer : Nat) (row : List α) : Except Error (Node α) :=
  match row with
  | [] => throw (.malformedNetwork (.emptyRow layer))
  | bias :: weights => pure ⟨bias, weights⟩

/-- The layers of rows, from layer number `layer` on. -/
def layersOfRows : Nat → List (List (List α)) → Except Error (List (Layer α))
  | _, [] => pure []
  | layer, rows :: rest => do
    let nodes ← rows.mapM (nodeOfRow layer)
    let layers ← layersOfRows (layer + 1) rest
    pure (nodes :: layers)

/-- A network from one row of a bias and weights per node. -/
def ofRows (rows : List (List (List α))) : Except Error (Network α) := do
  ofLayers (← layersOfRows 0 rows)

def inputDim (network : Network α) : Nat :=
  inputsOf network.layers

/-- The number of outputs, which is the size of the last layer. -/
def outputDim (network : Network α) : Nat :=
  (network.layers.getLast?.getD []).length

/-- The gate after a node: negative values are cut off at zero. -/
def gate (value : α) : α :=
  Scalar.larger value 0

/-- The values after the given layers, gated after each of them except the last. -/
def forward : List (Layer α) → List α → List α
  | [], values => values
  | [last], values => last.map (·.evaluate values)
  | layer :: rest, values => forward rest (layer.map fun node => gate (node.evaluate values))

def evaluate (network : Network α) (input : List α) : Except Error (List α) :=
  if input.length ≠ network.inputDim then
    throw (.malformedNetwork (.inputLength input.length network.inputDim))
  else
    pure (forward network.layers input)

end Network

end ReluLogic
