import ReluLogic.Scalar

/-!
Affine forms over the inputs of a network: a constant term followed by one coefficient per input. A
list without coefficients has no constant term and no values; the functions that ask for either without
a question mark read it as zero.
-/

namespace ReluLogic

/-- An affine form. The first coefficient is the constant term, the others multiply the inputs in
order. -/
structure Affine (α : Type) where
  coefficients : List α
  deriving Repr, DecidableEq

namespace Affine

variable {α : Type} [Scalar α]

def zero (dim : Nat) : Affine α :=
  ⟨List.replicate (dim + 1) 0⟩

def constant (form : Affine α) : α :=
  form.coefficients.headD 0

/-- The constant term, if there is one. -/
def constant? (form : Affine α) : Option α :=
  form.coefficients.head?

/-- The coefficients of the inputs. -/
def linear (form : Affine α) : List α :=
  form.coefficients.tail

def dim (form : Affine α) : Nat :=
  form.coefficients.length - 1

/-- The form lowered by one: where a form passes the upper end of the unit interval, this one passes
zero. -/
def minusOne (form : Affine α) : Affine α :=
  match form.coefficients with
  | [] => ⟨[]⟩
  | constant :: linear => ⟨(constant - 1) :: linear⟩

def isZero (form : Affine α) : Bool :=
  form.coefficients.all (· == 0)

def evaluate (form : Affine α) (point : List α) : α :=
  form.constant + Scalar.dot form.linear point

/-- The value at a point, if the form has a constant term. -/
def evaluate? (form : Affine α) (point : List α) : Option α :=
  form.constant?.map (· + Scalar.dot form.linear point)

theorem evaluate?_eq_some {form : Affine α} (h : form.coefficients ≠ []) (point : List α) :
    form.evaluate? point = some (form.evaluate point) := by
  obtain ⟨coefficients⟩ := form
  cases coefficients with
  | nil => exact absurd rfl h
  | cons constant linear => rfl

def negate (form : Affine α) : Affine α :=
  ⟨form.coefficients.map (-·)⟩

/-- The difference of two forms, paired up to the shorter one. -/
def difference (minuend subtrahend : Affine α) : Affine α :=
  ⟨List.zipWith (· - ·) minuend.coefficients subtrahend.coefficients⟩

end Affine

end ReluLogic
