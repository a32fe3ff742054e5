import ReluLogic.Fraction
import ReluLogic.Proofs.Rational

/-!
Decimal conversion in the exact reading. A value within the range of the conversion becomes the nearest
multiple of a millionth, so it moves by at most half a millionth, and a multiple of a millionth stays as it is.
A form over the unit box moves by at most half a millionth per coefficient. Lowest terms are a fixed point of bringing
to lowest terms, which never leaves the 64-bit range.
-/

namespace ReluLogic

theorem roundHalfAway_of_nonneg {value : ℚ} (h : 0 ≤ value) : roundHalfAway value = round value := by
  rw [roundHalfAway, if_neg (not_lt.mpr h), round_eq]
  rfl

/-- Within the 64-bit range the nearest integer is not held back. -/
theorem nearestInt_of_mem {value : ℚ} (hzero : 0 ≤ value) (hmax : value ≤ int64Max) :
    Scalar.nearestInt value = round value := by
  have hle : round value ≤ int64Max := by
    rw [round_eq, ← Int.lt_add_one_iff, Int.floor_lt]
    push_cast
    linarith
  have hge : 0 ≤ round value := by
    rw [round_eq]
    exact Int.floor_nonneg.mpr (by linarith)
  rw [show (Scalar.nearestInt value : Int) = max int64Min (min int64Max (roundHalfAway value)) from rfl,
    roundHalfAway_of_nonneg hzero, min_eq_right hle, max_eq_right (le_trans (by decide) hge)]

namespace Fraction

theorem value_eq (fraction : Fraction) : (fraction.value : ℚ) = fraction.num / fraction.den :=
  rfl

@[simp]
theorem value_zero : (zero.value : ℚ) = 0 := by
  rw [value_eq]
  exact div_eq_zero_iff.mpr (Or.inl Int.cast_zero)

@[simp]
theorem value_one : (one.value : ℚ) = 1 := by
  rw [value_eq]
  exact div_one _

theorem div_gcd_pos (scaled : Int) {whole : Int} (h : 0 < whole) : 0 < whole / (Int.gcd scaled whole : Int) :=
  Int.ediv_pos_of_pos_of_dvd h (Int.natCast_nonneg _) (Int.gcd_dvd_right _ _)

theorem cast_div_gcd (scaled : Int) {whole : Int} (h : whole ≠ 0) :
    ((scaled / (Int.gcd scaled whole : Int) : Int) : ℚ) / ((whole / (Int.gcd scaled whole : Int) : Int) : ℚ) =
      scaled / whole := by
  have hgcd : ((Int.gcd scaled whole : Int) : ℚ) ≠ 0 := by
    exact_mod_cast (Int.gcd_pos_of_ne_zero_right scaled h).ne'
  rw [Int.cast_div (Int.gcd_dvd_left _ _) hgcd, Int.cast_div (Int.gcd_dvd_right _ _) hgcd,
    div_div_div_cancel_right₀ hgcd]

theorem ofDecimal_den_pos {α : Type} [Scalar α] (value : α) : 0 < (ofDecimal value).den := by
  rw [ofDecimal]
  split_ifs <;> exact div_gcd_pos _ (by decide)

/-- The conversion is the scaled magnitude over a million, with the sign put back. -/
theorem value_ofDecimal (value : ℚ) :
    ((ofDecimal value).value : ℚ) =
      (if value < 0 then -1 else 1) * (Scalar.nearestInt (|value| * precision) / precision) := by
  have hcommon := cast_div_gcd (Scalar.nearestInt (|value| * precision)) (show precision ≠ 0 by decide)
  rw [value_eq, ofDecimal, Scalar.magnitude_eq_abs, Scalar.ofInt_eq_cast, ← hcommon]
  split_ifs
  · rw [Int.cast_neg, neg_div, neg_one_mul]
  · rw [one_mul]

end Fraction

/-- A value whose decimal conversion stays within the 64-bit range. -/
def Convertible (value : ℚ) : Prop :=
  |value| ≤ (int64Max : ℚ) / Fraction.precision

/-- A multiple of a millionth. -/
def IsDecimal (value : ℚ) : Prop :=
  ∃ parts : Int, value = parts / Fraction.precision

namespace Fraction

theorem precision_pos : (0 : ℚ) < precision := by
  norm_num [precision]

/-- A value is a multiple of a millionth if its multiple by a million is an integer. -/
theorem isDecimal_iff {value : ℚ} : IsDecimal value ↔ (value * precision).den = 1 := by
  rw [Rat.den_eq_one_iff]
  constructor
  · rintro ⟨parts, rfl⟩
    rw [div_mul_cancel₀ _ precision_pos.ne', Rat.num_intCast]
  · exact fun h => ⟨(value * precision).num, by rw [h, mul_div_cancel_right₀ _ precision_pos.ne']⟩

instance (value : ℚ) : Decidable (IsDecimal value) :=
  decidable_of_iff _ isDecimal_iff.symm

instance (value : ℚ) : Decidable (Convertible value) :=
  inferInstanceAs (Decidable (_ ≤ _))

theorem value_ofDecimal_of_convertible {value : ℚ} (h : Convertible value) :
    ((ofDecimal value).value : ℚ) =
      (if value < 0 then -1 else 1) * (round (|value| * precision) / precision) := by
  rw [value_ofDecimal, nearestInt_of_mem (mul_nonneg (abs_nonneg value) precision_pos.le)
    ((le_div_iff₀ precision_pos).mp h)]

theorem sign_mul_abs (value : ℚ) : (if value < 0 then -1 else 1) * |value| = value := by
  split_ifs with h
  · rw [abs_of_neg h, neg_one_mul, neg_neg]
  · rw [abs_of_nonneg (not_lt.mp h), one_mul]

/-- The conversion moves a value by at most half a millionth. -/
theorem abs_ofDecimal_sub_le {value : ℚ} (h : Convertible value) :
    |((ofDecimal value).value : ℚ) - value| ≤ 1 / (2 * precision) := by
  have hround := abs_sub_round (|value| * precision)
  have hsign : |(if value < 0 then (-1 : ℚ) else 1)| = 1 := by
    split_ifs
    · rw [abs_neg, abs_one]
    · exact abs_one
  calc |((ofDecimal value).value : ℚ) - value|
      = |(if value < 0 then -1 else 1) *
          ((round (|value| * precision) - |value| * precision) / precision)| := by
        conv_lhs => rw [value_ofDecimal_of_convertible h, ← sign_mul_abs value]
        rw [sub_div, mul_div_assoc, div_self precision_pos.ne', mul_one, sign_mul_abs value, mul_sub]
        rw [sign_mul_abs value]
    _ = |round (|value| * precision) - |value| * precision| / precision := by
        rw [abs_mul, hsign, one_mul, abs_div, abs_of_pos precision_pos]
    _ ≤ 1 / 2 / precision := by
        rw [abs_sub_comm]
        exact div_le_div_of_nonneg_right hround precision_pos.le
    _ = 1 / (2 * precision) := div_div _ _ _

/-- The conversion of a multiple of a millionth is exact. -/
theorem ofDecimal_of_isDecimal {value : ℚ} (h : Convertible value) (hdecimal : IsDecimal value) :
    ((ofDecimal value).value : ℚ) = value := by
  obtain ⟨parts, hparts⟩ := hdecimal
  have hscaled : |value| * precision = ((|parts| : Int) : ℚ) := by
    rw [hparts, abs_div, abs_of_pos precision_pos, div_mul_cancel₀ _ precision_pos.ne', Int.cast_abs]
  rw [value_ofDecimal_of_convertible h, hscaled, round_intCast, ← hscaled,
    mul_div_cancel_right₀ _ precision_pos.ne', sign_mul_abs]

end Fraction

/-! ### Lowest terms -/

/-- Numbers whose nearest integers are held within the signed 64-bit range. -/
class Scalar.Held (α : Type) [Scalar α] : Prop where
  nearestInt_mem : ∀ value : α, int64Min ≤ nearestInt value ∧ nearestInt value ≤ int64Max

instance : Scalar.Held ℚ where
  nearestInt_mem _ := ⟨le_max_left _ _, max_le (by decide) (min_le_left _ _)⟩

instance : Scalar.Held Float where
  nearestInt_mem value :=
    ⟨value.round.toInt64.le_toInt, Int.le_of_lt_add_one (value.round.toInt64.toInt_lt)⟩

namespace Fraction

/-- In lowest terms, with a positive denominator and both parts in the signed 64-bit range. -/
@[mk_iff]
structure Lowest (fraction : Fraction) : Prop where
  coprime : Int.gcd fraction.num fraction.den = 1
  den_pos : 0 < fraction.den
  num_mem : int64Min ≤ fraction.num ∧ fraction.num ≤ int64Max
  den_le : fraction.den ≤ int64Max

instance : DecidablePred Lowest :=
  fun _ => decidable_of_iff _ (lowest_iff _).symm

/-- Lowest terms stay as they are. -/
theorem Lowest.make_eq {fraction : Fraction} (h : fraction.Lowest) : make fraction.num fraction.den = fraction := by
  obtain ⟨num, den⟩ := fraction
  have hcoprime : Int.gcd num den = 1 := h.coprime
  have hpos : 0 < den := h.den_pos
  rw [make]
  split_ifs with hzero hneg
  · subst hzero
    rw [Int.gcd_zero_left] at hcoprime
    have hone : den = 1 := by omega
    rw [hone]
    rfl
  · exact absurd hpos (not_lt.mpr hneg.le)
  · rw [hcoprime]
    exact congrArg₂ Fraction.mk (Int.ediv_one num) (Int.ediv_one den)

/-- Division by a common factor stays within the 64-bit range. -/
theorem div_mem {num common : Int} (hcommon : 0 < common) (h : int64Min ≤ num ∧ num ≤ int64Max) :
    int64Min ≤ num / common ∧ num / common ≤ int64Max := by
  constructor
  · rw [Int.le_ediv_iff_mul_le hcommon]
    calc int64Min * common ≤ int64Min * 1 := Int.mul_le_mul_of_nonpos_left (by decide) hcommon
      _ ≤ num := by rw [mul_one]; exact h.1
  · apply Int.ediv_le_of_le_mul hcommon
    calc num ≤ int64Max * 1 := by rw [mul_one]; exact h.2
      _ ≤ int64Max * common := Int.mul_le_mul_of_nonneg_left hcommon (by decide)

/-- What is brought to lowest terms is in lowest terms, and within the 64-bit range if it was before. -/
theorem lowest_make {num den : Int} (hnum : int64Min ≤ num ∧ num ≤ int64Max) (hpos : 0 < den) (hden : den ≤ int64Max) :
    (make num den).Lowest := by
  rw [make]
  split_ifs with hzero hneg
  · exact ⟨by decide, by decide, by decide, by decide⟩
  · exact absurd hpos (not_lt.mpr hneg.le)
  · have hgcd : 0 < Int.gcd num den := Int.gcd_pos_of_ne_zero_left den hzero
    have hcommon : (0 : Int) < Int.gcd num den := Int.natCast_pos.mpr hgcd
    have hmin : int64Min ≤ den := le_trans (by decide) hpos.le
    exact {
      coprime := Int.gcd_ediv_gcd_ediv_gcd hgcd
      den_pos := div_gcd_pos num hpos
      num_mem := div_mem hcommon hnum
      den_le := (div_mem hcommon ⟨hmin, hden⟩).2 }

/-- A million has factors in common with the smallest 64-bit integer, so dividing by what is shared leaves a number
whose negation is in the range as well. -/
theorem neg_div_gcd_precision_mem {scaled : Int} (h : int64Min ≤ scaled ∧ scaled ≤ int64Max) :
    int64Min ≤ -(scaled / (Int.gcd scaled precision : Int)) ∧
      -(scaled / (Int.gcd scaled precision : Int)) ≤ int64Max := by
  have hcommon : (0 : Int) < Int.gcd scaled precision :=
    Int.natCast_pos.mpr (Int.gcd_pos_of_ne_zero_right scaled (by decide))
  have hupper := (div_mem hcommon h).2
  constructor
  · exact (by decide : int64Min ≤ -int64Max).trans (neg_le_neg hupper)
  · rcases h.1.eq_or_lt with heq | hlt
    · rw [← heq]
      decide
    · have hlower : -int64Max ≤ scaled / (Int.gcd scaled precision : Int) := by
        rw [Int.le_ediv_iff_mul_le hcommon]
        calc -int64Max * (Int.gcd scaled precision : Int) ≤ -int64Max * 1 :=
              Int.mul_le_mul_of_nonpos_left (by decide) hcommon
          _ ≤ scaled := by rw [mul_one]; exact Int.add_one_le_of_lt hlt
      exact neg_le.mp hlower

/-- The decimal conversion is in lowest terms. -/
theorem lowest_ofDecimal {α : Type} [Scalar α] [Scalar.Held α] (value : α) : (ofDecimal value).Lowest := by
  have hgcd (scaled : Int) : 0 < Int.gcd scaled precision := Int.gcd_pos_of_ne_zero_right scaled (by decide)
  have hcoprime (scaled : Int) : Int.gcd (scaled / (Int.gcd scaled precision : Int))
      (precision / (Int.gcd scaled precision : Int)) = 1 :=
    Int.gcd_ediv_gcd_ediv_gcd (hgcd scaled)
  have hden (scaled : Int) : precision / (Int.gcd scaled precision : Int) ≤ int64Max :=
    (div_mem (Int.natCast_pos.mpr (hgcd scaled)) ⟨by decide, by decide⟩).2
  have hheld := Scalar.Held.nearestInt_mem (Scalar.magnitude value * Scalar.ofInt precision)
  rw [ofDecimal]
  split_ifs
  · exact {
      coprime := (Int.neg_gcd).trans (hcoprime _)
      den_pos := div_gcd_pos _ (by decide)
      num_mem := neg_div_gcd_precision_mem hheld
      den_le := hden _ }
  · exact {
      coprime := hcoprime _
      den_pos := div_gcd_pos _ (by decide)
      num_mem := div_mem (Int.natCast_pos.mpr (hgcd _)) hheld
      den_le := hden _ }

end Fraction

/-! ### Forms -/

/-- The sum of products moves by at most as much as the coefficients do, over a point of the unit box. -/
theorem abs_sum_zipWith_sub_le {f : ℚ → ℚ} {bound : ℚ} (hbound : 0 ≤ bound) (coefficients : List ℚ) :
    ∀ point : List ℚ, (∀ value ∈ point, 0 ≤ value ∧ value ≤ 1) →
      (∀ coefficient ∈ coefficients, |f coefficient - coefficient| ≤ bound) →
        |(List.zipWith (· * ·) (coefficients.map f) point).sum -
          (List.zipWith (· * ·) coefficients point).sum| ≤ coefficients.length * bound := by
  induction coefficients with
  | nil =>
      intro point _ _
      rw [List.map_nil, List.zipWith_nil_left, sub_self, abs_zero]
      exact mul_nonneg (Nat.cast_nonneg _) hbound
  | cons coefficient coefficients ih =>
      intro point hpoint hmoved
      cases point with
      | nil =>
          rw [List.zipWith_nil_right, List.zipWith_nil_right, sub_self, abs_zero]
          exact mul_nonneg (Nat.cast_nonneg _) hbound
      | cons value point =>
          obtain ⟨⟨hzero, hone⟩, hpoint⟩ := List.forall_mem_cons.mp hpoint
          obtain ⟨hfirst, hmoved⟩ := List.forall_mem_cons.mp hmoved
          have hrest := ih point hpoint hmoved
          have hproduct : |(f coefficient - coefficient) * value| ≤ bound := by
            rw [abs_mul, abs_of_nonneg hzero]
            exact (mul_le_of_le_one_right (abs_nonneg _) hone).trans hfirst
          rw [List.map_cons, List.zipWith_cons_cons, List.zipWith_cons_cons, List.sum_cons, List.sum_cons,
            List.length_cons, Nat.cast_succ]
          rw [abs_le] at hrest hproduct ⊢
          constructor <;> linarith [hrest.1, hrest.2, hproduct.1, hproduct.2]

namespace Affine

/-- The form with decimal coefficients in place of its own. -/
def rounded (form : Affine ℚ) : Affine ℚ :=
  ⟨form.coefficients.map fun coefficient => (Fraction.ofDecimal coefficient).value⟩

/-- All coefficients stay within the range of the decimal conversion. -/
def Convertible (form : Affine ℚ) : Prop :=
  ∀ coefficient ∈ form.coefficients, ReluLogic.Convertible coefficient

/-- All coefficients are multiples of a millionth. -/
def IsDecimal (form : Affine ℚ) : Prop :=
  ∀ coefficient ∈ form.coefficients, ReluLogic.IsDecimal coefficient

instance (form : Affine ℚ) : Decidable form.Convertible :=
  inferInstanceAs (Decidable (∀ coefficient ∈ form.coefficients, _))

instance (form : Affine ℚ) : Decidable form.IsDecimal :=
  inferInstanceAs (Decidable (∀ coefficient ∈ form.coefficients, _))

/-- Over the unit box a form moves by at most half a millionth for each of its coefficients. -/
theorem abs_rounded_sub_le {form : Affine ℚ} {dim : Nat} (hlength : form.coefficients.length = dim + 1)
    (hform : form.Convertible) {point : List ℚ} (hpoint : point ∈ unitBox dim) :
    |form.rounded.evaluate point - form.evaluate point| ≤ (dim + 1) / (2 * Fraction.precision) := by
  obtain ⟨coefficients⟩ := form
  cases coefficients with
  | nil => cases hlength
  | cons constant linear =>
      obtain ⟨hconstant, hlinear⟩ := List.forall_mem_cons.mp hform
      have hbound : (0 : ℚ) ≤ 1 / (2 * Fraction.precision) :=
        one_div_nonneg.mpr (mul_nonneg zero_le_two Fraction.precision_pos.le)
      have hmoved := abs_sum_zipWith_sub_le hbound linear point hpoint.2
        fun coefficient hmem => Fraction.abs_ofDecimal_sub_le (hlinear coefficient hmem)
      have hfirst := Fraction.abs_ofDecimal_sub_le hconstant
      rw [show linear.length = dim from Nat.succ.inj hlength] at hmoved
      rw [evaluate_eq, evaluate_eq, rounded, List.map_cons]
      simp only [Affine.constant, Affine.linear, List.headD_cons, List.tail_cons]
      rw [add_div, ← mul_one_div (dim : ℚ)]
      rw [abs_le] at hmoved hfirst ⊢
      constructor <;> linarith [hmoved.1, hmoved.2, hfirst.1, hfirst.2]

theorem rounded_of_isDecimal {form : Affine ℚ} (hform : form.Convertible) (hdecimal : form.IsDecimal) :
    form.rounded = form := by
  obtain ⟨coefficients⟩ := form
  refine congrArg Affine.mk ((List.map_congr_left fun coefficient hmem => ?_).trans (List.map_id _))
  exact Fraction.ofDecimal_of_isDecimal (hform coefficient hmem) (hdecimal coefficient hmem)

end Affine

end ReluLogic
