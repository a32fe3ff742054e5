import ReluLogic.Config
import ReluLogic.Decomposition.Basic
import ReluLogic.Json.Basic
import ReluLogic.Network
import ReluLogic.Translation

/-!
Networks, settings, regions and decompositions in interchange form. Reading a network checks it; reading a
fraction keeps its parts as they are and refuses a zero denominator.
-/

namespace ReluLogic

namespace Node

/-- A node as an object with its bias and weights. -/
def toJson (node : Node Float) : Json :=
  .obj [("bias", .real node.bias), ("weights", .ofList .real node.weights)]

def ofJson? (json : Json) : Option (Node Float) := do
  pure ⟨← json.required? Json.float? "bias", ← json.required? (Json.list? Json.float?) "weights"⟩

end Node

namespace Network

/-- A layer as an object with its nodes. -/
def layerToJson (layer : Layer Float) : Json :=
  .obj [("nodes", .ofList Node.toJson layer)]

def layerOfJson? (json : Json) : Option (Layer Float) :=
  json.required? (Json.list? Node.ofJson?) "nodes"

/-- A network as the list of its layers. -/
def toJson (network : Network Float) : Json :=
  .ofList layerToJson network.layers

/-- Reads a network and checks it. -/
def ofJson? (json : Json) : Option (Network Float) := do
  (ofLayers (← json.list? layerOfJson?)).toOption

end Network

namespace Config

def toJson (config : Config Float) : Json :=
  .obj [
    ("multithreading", .bool config.multithreading),
    ("max_threads", .ofOption .ofNat config.maxThreads),
    ("lattice_tolerance", .real config.latticeTolerance),
    ("feasibility_tolerance", .real config.feasibilityTolerance),
    ("check_lattice", .bool config.checkLattice)]

/-- Reads settings; a field that is missing has its standard value. -/
def ofJson? (json : Json) : Option (Config Float) := do
  let _ ← json.fields?
  let usual : Config Float := standard
  pure {
    multithreading := ← json.defaulted? Json.bool? "multithreading" usual.multithreading
    maxThreads := ← json.defaulted? (Json.nullable? Json.nat64?) "max_threads" usual.maxThreads
    latticeTolerance := ← json.defaulted? Json.float? "lattice_tolerance" usual.latticeTolerance
    feasibilityTolerance :=
      ← json.defaulted? Json.float? "feasibility_tolerance" usual.feasibilityTolerance
    checkLattice := ← json.defaulted? Json.bool? "check_lattice" usual.checkLattice }

end Config

namespace Affine

/-- A form as the list of its coefficients. -/
def toJson (form : Affine Float) : Json :=
  .ofList .real form.coefficients

def ofJson? (json : Json) : Option (Affine Float) := do
  pure ⟨← json.list? Json.float?⟩

end Affine

namespace Sign

/-- A side by its name. -/
def toJson : Sign → Json
  | .geq => .str "GeqZero"
  | .leq => .str "LeqZero"

def ofJson? (json : Json) : Option Sign := do
  match ← json.choice? with
  | "GeqZero" => some .geq
  | "LeqZero" => some .leq
  | _ => none

end Sign

namespace Boundary

/-- A boundary as an object with its index and side. -/
def toJson (boundary : Boundary) : Json :=
  .obj [("index", .ofNat boundary.index), ("sign", boundary.sign.toJson)]

def ofJson? (json : Json) : Option Boundary := do
  pure ⟨← json.required? Json.nat64? "index", ← json.required? Sign.ofJson? "sign"⟩

end Boundary

namespace Fraction

/-- A fraction as the pair of its parts. -/
def toJson (fraction : Fraction) : Json :=
  .arr [.int fraction.num, .int fraction.den]

/-- Reads a fraction as it is; its denominator is not zero. -/
def ofJson? (json : Json) : Option Fraction := do
  match ← json.list? Json.int64? with
  | [num, den] => if den = 0 then none else some ⟨num, den⟩
  | _ => none

end Fraction

namespace Piece

/-- A piece as an object with its coefficients and region. -/
def toJson (piece : Piece) : Json :=
  .obj [
    ("coefficients", .ofList Fraction.toJson piece.coefficients),
    ("region", .ofList Boundary.toJson piece.region)]

def ofJson? (json : Json) : Option Piece := do
  pure ⟨← json.required? (Json.list? Fraction.ofJson?) "coefficients",
    ← json.required? (Json.list? Boundary.ofJson?) "region"⟩

end Piece

namespace RegionDump

/-- A dump as an object with its prototypes and pieces. -/
def toJson (dump : RegionDump Float) : Json :=
  .obj [
    ("prototypes", .ofList Affine.toJson dump.prototypes),
    ("pieces", .ofList Piece.toJson dump.pieces)]

def ofJson? (json : Json) : Option (RegionDump Float) := do
  pure ⟨← json.required? (Json.list? Affine.ofJson?) "prototypes",
    ← json.required? (Json.list? Piece.ofJson?) "pieces"⟩

end RegionDump

namespace Decomposition

/-- A decomposition as an object with its prototypes, outputs and pieces. -/
def toJson (decomposition : Decomposition Float) : Json :=
  .obj [
    ("prototypes", .ofList Affine.toJson decomposition.prototypes),
    ("outputs", .ofList .ofNat decomposition.outputs),
    ("pieces", .ofList (.ofList Piece.toJson) decomposition.pieces)]

def ofJson? (json : Json) : Option (Decomposition Float) := do
  pure ⟨← json.required? (Json.list? Affine.ofJson?) "prototypes",
    ← json.required? (Json.list? Json.nat64?) "outputs",
    ← json.required? (Json.list? (Json.list? Piece.ofJson?)) "pieces"⟩

end Decomposition

end ReluLogic
