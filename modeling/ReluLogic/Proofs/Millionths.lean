import ReluLogic.Proofs.Fraction

/-!
Decimal conversion as a rounding. A converted value is a whole number of millionths in lowest terms: the nearest one, a
half away from zero, held within the 64-bit range. Rounding goes with the sign and with the order, and leaves a whole
number alone, and so the conversion goes with both and leaves alone what was converted.
-/

namespace ReluLogic

/-! ### Rounding -/

theorem roundHalfAway_of_neg {value : ℚ} (h : value < 0) : roundHalfAway value = -round (-value) := by
  rw [roundHalfAway, if_pos h, round_eq]
  rfl

theorem roundHalfAway_neg (value : ℚ) : roundHalfAway (-value) = -roundHalfAway value := by
  rcases lt_trichotomy value 0 with h | rfl | h
  · rw [roundHalfAway_of_neg h, roundHalfAway_of_nonneg (neg_nonneg.mpr h.le), neg_neg]
  · rw [neg_zero, roundHalfAway_of_nonneg le_rfl, round_zero, neg_zero]
  · rw [roundHalfAway_of_neg (neg_neg_iff_pos.mpr h), roundHalfAway_of_nonneg h.le, neg_neg]

theorem roundHalfAway_nonneg {value : ℚ} (h : 0 ≤ value) : 0 ≤ roundHalfAway value := by
  rw [roundHalfAway_of_nonneg h, round_eq]
  exact Int.floor_nonneg.mpr (by linarith)

theorem roundHalfAway_mono : Monotone roundHalfAway := by
  have hround : Monotone (round : ℚ → Int) := by
    intro a b h
    rw [round_eq, round_eq]
    exact Int.floor_mono (by linarith)
  intro a b h
  rcases lt_or_ge a 0 with ha | ha
  · rcases lt_or_ge b 0 with hb | hb
    · rw [roundHalfAway_of_neg ha, roundHalfAway_of_neg hb]
      exact neg_le_neg (hround (neg_le_neg h))
    · have hleft := roundHalfAway_nonneg (neg_nonneg.mpr ha.le)
      rw [roundHalfAway_neg] at hleft
      exact (neg_nonneg.mp hleft).trans (roundHalfAway_nonneg hb)
  · rw [roundHalfAway_of_nonneg ha, roundHalfAway_of_nonneg (ha.trans h)]
    exact hround h

theorem roundHalfAway_intCast (number : Int) : roundHalfAway (number : ℚ) = number := by
  rcases lt_or_ge (number : ℚ) 0 with h | h
  · rw [roundHalfAway_of_neg h, ← Int.cast_neg, round_intCast, neg_neg]
  · rw [roundHalfAway_of_nonneg h, round_intCast]

namespace Fraction

/-! ### Whole numbers of millionths -/

/-- The nearest number of millionths, a half away from zero, held within the 64-bit range. -/
def millionths (value : ℚ) : Int :=
  max (-int64Max) (min int64Max (roundHalfAway (value * precision)))

/-- A number of millionths in lowest terms. -/
def ofMillionths (parts : Int) : Fraction :=
  ⟨parts / (Int.gcd parts precision : Int), precision / (Int.gcd parts precision : Int)⟩

theorem millionths_neg (value : ℚ) : millionths (-value) = -millionths value := by
  have hmax : 0 ≤ int64Max := by decide
  rw [millionths, millionths, neg_mul, roundHalfAway_neg]
  omega

theorem millionths_mono : Monotone millionths := by
  intro a b h
  exact max_le_max_left _ (min_le_min_left _ (roundHalfAway_mono (mul_le_mul_of_nonneg_right h precision_pos.le)))

theorem abs_millionths_le (value : ℚ) : |millionths value| ≤ int64Max := by
  have hmax : 0 ≤ int64Max := by decide
  rw [abs_le, millionths]
  omega

/-- A number of millionths that is held already stays as it is. -/
theorem millionths_div_precision {parts : Int} (h : |parts| ≤ int64Max) :
    millionths (parts / precision : ℚ) = parts := by
  obtain ⟨hmin, hmax⟩ := abs_le.mp h
  rw [millionths, div_mul_cancel₀ _ precision_pos.ne', roundHalfAway_intCast, min_eq_right hmax, max_eq_right hmin]

theorem value_ofMillionths (parts : Int) : ((ofMillionths parts).value : ℚ) = parts / precision :=
  cast_div_gcd parts (by decide)

theorem ofMillionths_neg (parts : Int) :
    ofMillionths (-parts) = ⟨-(ofMillionths parts).num, (ofMillionths parts).den⟩ := by
  rw [ofMillionths, ofMillionths, Int.neg_gcd, Int.neg_ediv_of_dvd (Int.gcd_dvd_left _ _)]

/-- The conversion is the number of millionths in lowest terms. -/
theorem ofDecimal_eq (value : ℚ) : ofDecimal value = ofMillionths (millionths value) := by
  have hnonneg : ∀ {value : ℚ}, 0 ≤ value → Scalar.nearestInt (value * precision) = millionths value := by
    intro value h
    have hround := roundHalfAway_nonneg (mul_nonneg h precision_pos.le)
    have hmax : 0 ≤ int64Max := by decide
    have hmin : int64Min ≤ 0 := by decide
    change max int64Min (min int64Max (roundHalfAway (value * precision))) = millionths value
    rw [millionths]
    omega
  rw [ofDecimal, Scalar.magnitude_eq_abs, Scalar.ofInt_eq_cast, hnonneg (abs_nonneg value)]
  split_ifs with h
  · rw [← neg_neg value, millionths_neg, ofMillionths_neg, neg_neg, abs_of_neg h]
    rfl
  · rw [abs_of_nonneg (not_lt.mp h)]
    rfl

theorem value_ofDecimal_eq (value : ℚ) : ((ofDecimal value).value : ℚ) = millionths value / precision := by
  rw [ofDecimal_eq, value_ofMillionths]

theorem ofDecimal_den_dvd (value : ℚ) : (ofDecimal value).den ∣ precision := by
  rw [ofDecimal_eq]
  exact Int.ediv_dvd_of_dvd (Int.gcd_dvd_right _ _)

/-- Decimal conversion is a canonical rounding: it gives lowest terms over a divisor of a million, leaves alone what was
converted, goes with the sign and with the order, and within its range moves a value by at most half a millionth. -/
theorem ofDecimal_canonical :
    (∀ value : ℚ, Int.gcd (ofDecimal value).num (ofDecimal value).den = 1 ∧ 0 < (ofDecimal value).den ∧
      (ofDecimal value).den ∣ precision) ∧
    (∀ value : ℚ, ofDecimal ((ofDecimal value).value : ℚ) = ofDecimal value) ∧
    (∀ value : ℚ, ofDecimal (-value) = ⟨-(ofDecimal value).num, (ofDecimal value).den⟩) ∧
    (∀ value other : ℚ, value ≤ other → ((ofDecimal value).value : ℚ) ≤ (ofDecimal other).value) ∧
    ∀ value : ℚ, Convertible value → |((ofDecimal value).value : ℚ) - value| ≤ 1 / (2 * precision) := by
  refine ⟨fun value => ?_, fun value => ?_, fun value => ?_, fun value other h => ?_, fun value => abs_ofDecimal_sub_le⟩
  · exact ⟨(lowest_ofDecimal value).coprime, ofDecimal_den_pos value, ofDecimal_den_dvd value⟩
  · rw [ofDecimal_eq ((ofDecimal value).value : ℚ), value_ofDecimal_eq,
      millionths_div_precision (abs_millionths_le value), ofDecimal_eq]
  · rw [ofDecimal_eq, millionths_neg, ofMillionths_neg, ofDecimal_eq]
  · rw [value_ofDecimal_eq, value_ofDecimal_eq]
    exact div_le_div_of_nonneg_right (Int.cast_le.mpr (millionths_mono h)) precision_pos.le

/-- Half a millionth lies between two numbers of millionths and goes away from zero, as its negative does. -/
theorem ofDecimal_canonical_tie :
    ofDecimal (1 / 2000000 : ℚ) = ⟨1, 1000000⟩ ∧ ofDecimal (-(1 / 2000000) : ℚ) = ⟨-1, 1000000⟩ ∧
      (-(1 / 2000000) : ℚ) ≤ 1 / 2000000 ∧
      ((ofDecimal (-(1 / 2000000) : ℚ)).value : ℚ) ≤ (ofDecimal (1 / 2000000 : ℚ)).value ∧
      Convertible (1 / 2000000) ∧
      |((ofDecimal (1 / 2000000 : ℚ)).value : ℚ) - 1 / 2000000| ≤ 1 / (2 * precision) := by
  have hconvertible : Convertible (1 / 2000000) := by decide +kernel
  have hle : (-(1 / 2000000) : ℚ) ≤ 1 / 2000000 := by norm_num
  obtain ⟨-, -, -, hmono, hnear⟩ := ofDecimal_canonical
  exact ⟨by decide +kernel, by decide +kernel, hle, hmono _ _ hle, hconvertible, hnear _ hconvertible⟩

end Fraction

end ReluLogic
