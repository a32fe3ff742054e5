import Mathlib
import ReluLogic.Network
import ReluLogic.Region

/-!
Exact arithmetic. Over the rationals the operations of `Scalar` are those of the ordered field: the larger
of two values is their maximum, sums and inner products are the usual ones, and a sign admits a value
exactly when the value lies on its side of zero.
-/

namespace ReluLogic

namespace Scalar

@[simp]
theorem larger_eq_max (a b : ℚ) : larger a b = max a b := by
  simp only [larger, BEq.rfl, if_true]
  split_ifs with h
  · exact (max_eq_right h.le).symm
  · exact (max_eq_left (not_lt.mp h)).symm

@[simp]
theorem smaller_eq_min (a b : ℚ) : smaller a b = min a b := by
  simp only [smaller, BEq.rfl, if_true]
  split_ifs with h
  · exact (min_eq_right h.le).symm
  · exact (min_eq_left (not_lt.mp h)).symm

@[simp]
theorem magnitude_eq_abs (a : ℚ) : magnitude a = |a| := by
  simp only [magnitude]
  split_ifs with h
  · exact (abs_of_neg h).symm
  · exact (abs_of_nonneg (not_lt.mp h)).symm

@[simp]
theorem sum_eq_sum (values : List ℚ) : sum values = values.sum :=
  List.sum_eq_foldl.symm

theorem dot_eq_sum (coefficients point : List ℚ) :
    dot coefficients point = (List.zipWith (· * ·) coefficients point).sum :=
  sum_eq_sum _

@[simp]
theorem ofInt_eq_cast (value : Int) : (ofInt value : ℚ) = value :=
  rfl

end Scalar

/-- Cutting a value off to the unit interval. -/
def clamp (value : ℚ) : ℚ :=
  min 1 (max 0 value)

theorem clamp_mono {a b : ℚ} (h : a ≤ b) : clamp a ≤ clamp b :=
  min_le_min_left _ (max_le_max_left _ h)

theorem clamp_nonneg (value : ℚ) : 0 ≤ clamp value :=
  le_min zero_le_one (le_max_left _ _)

theorem clamp_le_one (value : ℚ) : clamp value ≤ 1 :=
  min_le_left _ _

theorem clamp_of_nonpos {value : ℚ} (h : value ≤ 0) : clamp value = 0 := by
  rw [clamp, max_eq_left h, min_eq_right zero_le_one]

theorem clamp_of_one_le {value : ℚ} (h : 1 ≤ value) : clamp value = 1 := by
  rw [clamp, max_eq_right (zero_le_one.trans h), min_eq_left h]

theorem clamp_of_mem {value : ℚ} (hzero : 0 ≤ value) (hone : value ≤ 1) : clamp value = value := by
  rw [clamp, max_eq_right hzero, min_eq_right hone]

theorem clamp_add_le {a slack : ℚ} (hslack : 0 ≤ slack) : clamp (a + slack) ≤ clamp a + slack := by
  rcases le_total (a + slack) 0 with h | h
  · rw [clamp_of_nonpos h]
    exact add_nonneg (clamp_nonneg a) hslack
  · rw [clamp, max_eq_right h, clamp]
    rcases le_total 1 (max 0 a) with hone | hone
    · rw [min_eq_left hone]
      exact (min_le_left _ _).trans (le_add_of_nonneg_right hslack)
    · rw [min_eq_right hone]
      exact (min_le_right _ _).trans (add_le_add_left (le_max_right 0 a) slack)

/-- Cutting off keeps the distance of two values or makes it smaller. -/
theorem abs_clamp_sub_clamp_le (a b : ℚ) : |clamp a - clamp b| ≤ |a - b| := by
  have hab : clamp a ≤ clamp b + |a - b| :=
    (clamp_mono (by linarith [le_abs_self (a - b)])).trans (clamp_add_le (abs_nonneg (a - b)))
  have hba : clamp b ≤ clamp a + |a - b| :=
    (clamp_mono (by linarith [neg_abs_le (a - b)])).trans (clamp_add_le (abs_nonneg (a - b)))
  rw [abs_le]
  constructor <;> linarith

@[simp]
theorem Sign.admits_geq (value : ℚ) : Sign.geq.admits value 0 = true ↔ 0 ≤ value := by
  simp only [Sign.admits, decide_eq_true_eq]
  rw [show (-0 : ℚ) = 0 from neg_zero]

@[simp]
theorem Sign.admits_leq (value : ℚ) : Sign.leq.admits value 0 = true ↔ value ≤ 0 := by
  simp only [Sign.admits, decide_eq_true_eq]

namespace Affine

theorem evaluate_eq (form : Affine ℚ) (point : List ℚ) :
    form.evaluate point = form.constant + (List.zipWith (· * ·) form.linear point).sum := by
  rw [evaluate, Scalar.dot_eq_sum]

/-- A form of one input is a line. -/
theorem evaluate_pair (start slope input : ℚ) :
    (⟨[start, slope]⟩ : Affine ℚ).evaluate [input] = start + slope * input := by
  simp [evaluate_eq, constant, linear]

end Affine

theorem Node.evaluate_eq (node : Node ℚ) (inputs : List ℚ) :
    node.evaluate inputs = node.bias + (List.zipWith (· * ·) node.weights inputs).sum := by
  rw [Node.evaluate, Scalar.dot_eq_sum]

@[simp]
theorem Network.gate_eq_max (value : ℚ) : Network.gate value = max value 0 :=
  Scalar.larger_eq_max value 0

/-- The points with `dim` coordinates between zero and one. -/
def unitBox (dim : Nat) : Set (List ℚ) :=
  {point | point.length = dim ∧ ∀ value ∈ point, 0 ≤ value ∧ value ≤ 1}

end ReluLogic
