import ReluLogic.Config
import ReluLogic.Decomposition.Partitioned
import ReluLogic.Encoding.Piece
import ReluLogic.Formula.Text
import ReluLogic.Lattice.Join

/-!
The whole translation: a network is decomposed into pieces, the pieces of each requested output are
encoded with variables of one shared allocator, and their formulas are joined. A call that fails keeps
the variables that it took.
-/

namespace ReluLogic

/-- The encoded pieces of one output and their join. -/
structure OutputTranslation where
  output : Nat
  /-- One encoding per piece, in the order of the pieces. -/
  modsats : List Modsat
  lattice : Formula
  deriving Repr, DecidableEq

namespace OutputTranslation

/-- The join bound to a variable by an equivalence. -/
def boundTo (translation : OutputTranslation) (index : Nat) : Formula :=
  translation.lattice.equivalent (.atom index)

def defining (translation : OutputTranslation) : List Formula :=
  translation.modsats.flatMap Modsat.defining

/-- The translation as a problem with its largest variable. -/
def limodsat (translation : OutputTranslation) (maxVariable : Nat) : Limodsat :=
  ⟨translation.lattice, maxVariable, translation.modsats⟩

end OutputTranslation

structure Translation (α : Type) where
  decomposition : Decomposition α
  outputs : List OutputTranslation
  /-- The variable handed out last when all outputs were encoded. -/
  maxVariable : Nat
  deriving Repr, DecidableEq

namespace Translation

variable {α : Type}

def output? (translation : Translation α) (output : Nat) : Option OutputTranslation :=
  translation.outputs.find? (·.output == output)

/-- The problem of an output, if it was requested. -/
def limodsat? (translation : Translation α) (output : Nat) : Option Limodsat :=
  (translation.output? output).map (·.limodsat translation.maxVariable)

end Translation

/-- Prototypes and the pieces of one output. -/
structure RegionDump (α : Type) where
  prototypes : List (Affine α)
  pieces : List Piece
  deriving Repr, DecidableEq

/-- The number of inputs: that of the first prototype, or of the first piece if there is none. -/
def RegionDump.dim? {α : Type} (dump : RegionDump α) : Option Nat :=
  (dump.prototypes.head?.map Affine.dim).or (dump.pieces.head?.map Piece.dim)

/-- What a run of translations is set up with. -/
structure Translator (α : Type) where
  /-- The number of inputs. -/
  dim : Nat
  config : Config α
  oracle : Oracle α
  /-- The number of workers that the machine offers. -/
  availableThreads : Nat

namespace Translator

variable {α : Type} [Scalar α]

def threads (translator : Translator α) : Nat :=
  translator.config.threadBudget translator.availableThreads

/-- Data for another number of inputs is refused. -/
def checkDim (translator : Translator α) (dim : Nat) : Except Error Unit :=
  if dim ≠ translator.dim then throw (.malformedNetwork (.translatorInputs translator.dim dim))
  else pure ()

def decompose (translator : Translator α) (network : Network α) (outputs : List Nat) :
    Except Error (Decomposition α) := do
  translator.checkDim network.inputDim
  if translator.config.multithreading && 1 < translator.threads then
    network.decomposeParallel translator.oracle outputs translator.threads
  else
    network.decompose translator.oracle outputs

def encodePiece (translator : Translator α) (coefficients : List Fraction) : Encoding Modsat :=
  if coefficients.length ≠ translator.dim + 1 then
    Encoding.fail (.coefficientCount coefficients.length (translator.dim + 1))
  else
    Encoding.encode coefficients

def encodePieces (translator : Translator α) (pieces : List Piece) : Encoding (List Modsat) :=
  pieces.mapM fun piece => translator.encodePiece piece.coefficients

def family (translator : Translator α) (prototypes : List (Affine α)) (pieces : List Piece) :
    PieceFamily α :=
  ⟨prototypes, pieces, translator.oracle, translator.config.latticeTolerance⟩

/-- The encoded pieces of an output and their join. The lattice check, if it is asked for, comes before
any variable is handed out. -/
def translatePieces (translator : Translator α) (output : Nat) (prototypes : List (Affine α))
    (pieces : List Piece) : Encoding OutputTranslation := do
  let family := translator.family prototypes pieces
  if translator.config.checkLattice then
    let table ← liftExcept family.checkLatticeProperty
    let modsats ← translator.encodePieces pieces
    let lattice ← liftExcept
      (family.assembleWithTable table (modsats.map Modsat.phi) translator.threads)
    pure ⟨output, modsats, lattice⟩
  else
    let modsats ← translator.encodePieces pieces
    let lattice ← liftExcept (family.assemble (modsats.map Modsat.phi) translator.threads)
    pure ⟨output, modsats, lattice⟩

/-- The translation of a dump, as output zero. -/
def translateDump (translator : Translator α) (dump : RegionDump α) : Encoding OutputTranslation := do
  match dump.dim? with
  | some dim => liftExcept (translator.checkDim dim)
  | none => pure ()
  translator.translatePieces 0 dump.prototypes dump.pieces

/-- The translation of a network for the requested outputs. -/
def translate (translator : Translator α) (network : Network α) (outputs : List Nat) :
    Encoding (Translation α) := do
  let decomposition ← liftExcept (translator.decompose network outputs)
  let translations ← (decomposition.outputs.zip decomposition.pieces).mapM fun (output, pieces) =>
    translator.translatePieces output decomposition.prototypes pieces
  pure ⟨decomposition, translations, (← get).counter⟩

end Translator

end ReluLogic
