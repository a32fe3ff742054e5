import ReluLogic.Affine
import ReluLogic.Fraction

/-!
Regions of the input box and the affine pieces on them. A boundary asks one prototype, named by its
place in a shared list, to be non-negative or non-positive; a region is a conjunction of boundaries.
-/

namespace ReluLogic

/-- The side of zero that a form is held to. -/
inductive Sign where
  /-- At least zero. -/
  | geq
  /-- At most zero. -/
  | leq
  deriving Repr, DecidableEq

/-- Whether a value lies on a side of zero, up to a tolerance. -/
def Sign.admits {α : Type} [Scalar α] (sign : Sign) (value tolerance : α) : Bool :=
  match sign with
  | .geq => -tolerance ≤ value
  | .leq => value ≤ tolerance

/-- A prototype, by its place in the list, held to one side of zero. -/
structure Boundary where
  index : Nat
  sign : Sign
  deriving Repr, DecidableEq

namespace Boundary

def geq (index : Nat) : Boundary := ⟨index, .geq⟩

def leq (index : Nat) : Boundary := ⟨index, .leq⟩

/-- Whether a point lies on the boundary's side. A boundary without a prototype admits no point; one whose
prototype has no value leaves the question open. -/
def admits? {α : Type} [Scalar α] (prototypes : List (Affine α)) (point : List α) (tolerance : α)
    (boundary : Boundary) : Option Bool :=
  match prototypes[boundary.index]? with
  | some form => (form.evaluate? point).map fun value => boundary.sign.admits value tolerance
  | none => some false

/-- Whether a point lies on the sides of all boundaries. They are asked in order up to the first that does
not admit the point; what comes behind it is not looked at. -/
def allAdmit? {α : Type} [Scalar α] (prototypes : List (Affine α)) (point : List α) (tolerance : α) :
    List Boundary → Option Bool
  | [] => some true
  | boundary :: rest => do
    if ← boundary.admits? prototypes point tolerance then
      allAdmit? prototypes point tolerance rest
    else
      some false

theorem allAdmit?_eq_true_iff {α : Type} [Scalar α] {prototypes : List (Affine α)} {point : List α}
    {tolerance : α} {region : List Boundary} :
    allAdmit? prototypes point tolerance region = some true ↔
      ∀ boundary ∈ region, boundary.admits? prototypes point tolerance = some true := by
  induction region with
  | nil => simp [allAdmit?]
  | cons boundary rest ih =>
    rw [List.forall_mem_cons, ← ih, allAdmit?]
    cases boundary.admits? prototypes point tolerance with
    | none => simp
    | some admitted => cases admitted <;> simp

end Boundary

/-- An exact affine value together with the region on which it holds. -/
structure Piece where
  /-- The constant term followed by one coefficient per input. -/
  coefficients : List Fraction
  /-- The conjunction of boundaries. -/
  region : List Boundary
  deriving Repr, DecidableEq

namespace Piece

def zero (dim : Nat) (region : List Boundary) : Piece :=
  ⟨List.replicate (dim + 1) .zero, region⟩

def one (dim : Nat) (region : List Boundary) : Piece :=
  ⟨.one :: List.replicate dim .zero, region⟩

def dim (piece : Piece) : Nat :=
  piece.coefficients.length - 1

def isZero (piece : Piece) : Bool :=
  piece.coefficients.all Fraction.isZero

variable {α : Type} [Scalar α]

def form (piece : Piece) : Affine α :=
  ⟨piece.coefficients.map Fraction.value⟩

def evaluate (piece : Piece) (point : List α) : α :=
  piece.form.evaluate point

/-- The value of the piece's form at a point, if it has one. -/
def evaluate? (piece : Piece) (point : List α) : Option α :=
  piece.form.evaluate? point

/-- Whether a point satisfies every boundary of the piece's region, if that can be told. -/
def contains? (piece : Piece) (prototypes : List (Affine α)) (point : List α) (tolerance : α) :
    Option Bool :=
  Boundary.allAdmit? prototypes point tolerance piece.region

/-- Whether a point is found to satisfy every boundary of the piece's region. -/
def contains (piece : Piece) (prototypes : List (Affine α)) (point : List α) (tolerance : α) :
    Bool :=
  piece.contains? prototypes point tolerance == some true

theorem contains_iff {piece : Piece} {prototypes : List (Affine α)} {point : List α} {tolerance : α} :
    piece.contains prototypes point tolerance = true ↔
      ∀ boundary ∈ piece.region, boundary.admits? prototypes point tolerance = some true := by
  rw [contains, beq_iff_eq, contains?, Boundary.allAdmit?_eq_true_iff]

end Piece

end ReluLogic
