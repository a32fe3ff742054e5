import ReluLogic.Encoding.Scale
import ReluLogic.Proofs.Encoding.Doubling
import ReluLogic.Proofs.Fraction

/-!
Scales in the exact reading. Sums of coefficients are exact while they stay in range, the scale bounds the
coefficients of either sign, and the scaled terms of either sign add up to at most one. Their signed sum, scaled
back, is the affine value.
-/

namespace ReluLogic

namespace Fraction

variable {num den : Int} {left right fraction : Fraction}

/-- Lowest terms keep the value and have a positive denominator. -/
theorem value_make (num : Int) (h : den ≠ 0) : ((make num den).value : ℚ) = num / den ∧ 0 < (make num den).den := by
  rw [make]
  by_cases hnum : num = 0
  · rw [if_pos hnum, hnum, value_zero, Int.cast_zero, zero_div]
    exact ⟨rfl, one_pos⟩
  · rw [if_neg hnum]
    have hvalue := cast_div_gcd num h
    by_cases hden : den < 0
    · rw [if_pos hden]
      have hneg : 0 < -den / (Int.gcd num den : Int) := by
        rw [← Int.gcd_neg]
        exact div_gcd_pos num (neg_pos.mpr hden)
      rw [value_eq]
      simp only [Int.cast_neg, neg_div_neg_eq]
      refine ⟨hvalue, ?_⟩
      rwa [← Int.neg_ediv_of_dvd (Int.gcd_dvd_right _ _)]
    · rw [if_neg hden]
      exact ⟨hvalue, div_gcd_pos num (lt_of_le_of_ne (not_lt.mp hden) h.symm)⟩

theorem value_reduced (h : fraction.den ≠ 0) :
    (fraction.reduced.value : ℚ) = fraction.value ∧ 0 < fraction.reduced.den :=
  value_make fraction.num h

theorem within128_eq_some {value result : Int} (h : within128 value = some result) : result = value := by
  rw [within128] at h
  split_ifs at h
  exact (Option.some.inj h).symm

/-- A combination that stays in range is exact: both fractions are brought over a common denominator. -/
theorem combine?_eq_some {operation : Int → Int → Int} (hleft : 0 < left.den) (hright : 0 < right.den)
    (h : combine? operation left right = some fraction) :
    ∃ common : Int, 0 < common ∧
      fraction = make (operation (common / left.den * left.num) (common / right.den * right.num)) common ∧
      (left.value : ℚ) = (common / left.den * left.num : Int) / common ∧
        (right.value : ℚ) = (common / right.den * right.num : Int) / common := by
  obtain ⟨common, hcommon, h⟩ := Option.bind_eq_some_iff.mp h
  obtain ⟨first, hfirst, h⟩ := Option.bind_eq_some_iff.mp h
  obtain ⟨second, hsecond, h⟩ := Option.bind_eq_some_iff.mp h
  obtain ⟨total, htotal, h⟩ := Option.bind_eq_some_iff.mp h
  cases h
  rw [within128_eq_some htotal, within128_eq_some hfirst, within128_eq_some hsecond]
  have hcommon' := within128_eq_some hcommon
  have hpos : 0 < common := by
    rw [hcommon']
    refine mul_pos (Int.ediv_pos_of_pos_of_dvd hleft (Int.natCast_nonneg _) (Int.gcd_dvd_left _ _)) hright
  have hdvd : left.den ∣ common := by
    rw [hcommon', Int.mul_comm, ← Int.mul_ediv_assoc _ (Int.gcd_dvd_left _ _), Int.mul_comm,
      Int.mul_ediv_assoc _ (Int.gcd_dvd_right _ _)]
    exact Int.dvd_mul_right _ _
  have hdvd' : right.den ∣ common := hcommon' ▸ Int.dvd_mul_left _ _
  have hvalue : ∀ {part : Fraction}, 0 < part.den → part.den ∣ common →
      (part.value : ℚ) = (common / part.den * part.num : Int) / common := by
    intro part hpart hdvd
    have hpart' : (part.den : ℚ) ≠ 0 := by exact_mod_cast hpart.ne'
    have hpos' : (common : ℚ) ≠ 0 := by exact_mod_cast hpos.ne'
    rw [value_eq, Int.cast_mul, Int.cast_div hdvd hpart', div_eq_div_iff hpart' hpos']
    field_simp
  exact ⟨common, hpos, rfl, hvalue hleft hdvd, hvalue hright hdvd'⟩

/-- A combination that goes through a common denominator is the combination of the values. -/
theorem value_combine? {operation : Int → Int → Int} {combined : ℚ → ℚ → ℚ}
    (hcombined : ∀ first second common : Int,
      ((operation first second : Int) : ℚ) / common = combined (first / common) (second / common))
    (hleft : 0 < left.den) (hright : 0 < right.den) (h : combine? operation left right = some fraction) :
    (fraction.value : ℚ) = combined left.value right.value ∧ 0 < fraction.den := by
  obtain ⟨common, hpos, rfl, hfirst, hsecond⟩ := combine?_eq_some hleft hright h
  obtain ⟨hvalue, hden⟩ :=
    value_make (operation (common / left.den * left.num) (common / right.den * right.num)) hpos.ne'
  refine ⟨?_, hden⟩
  rw [hvalue, hcombined, hfirst, hsecond]

theorem value_add? (hleft : 0 < left.den) (hright : 0 < right.den) (h : left.add? right = some fraction) :
    (fraction.value : ℚ) = left.value + right.value ∧ 0 < fraction.den :=
  value_combine? (fun first second common => by rw [Int.cast_add, add_div]) hleft hright h

theorem value_sub? (hleft : 0 < left.den) (hright : 0 < right.den) (h : left.sub? right = some fraction) :
    (fraction.value : ℚ) = left.value - right.value ∧ 0 < fraction.den :=
  value_combine? (fun first second common => by rw [Int.cast_sub, sub_div]) hleft hright h

theorem value_le_ceiling (h : 0 < fraction.den) : (fraction.value : ℚ) ≤ fraction.ceiling := by
  have hpos : (0 : ℚ) < fraction.den := by exact_mod_cast h
  rw [value_eq, ceiling]
  split_ifs with hone
  · rw [hone, Int.cast_one, div_one]
  · rw [div_le_iff₀ hpos]
    exact_mod_cast (Int.lt_ediv_add_one_mul_self fraction.num h).le

/-- The larger of two fractions is at least either of them. -/
theorem value_le_larger (hleft : 0 < left.den) (hright : 0 < right.den) :
    (left.value : ℚ) ≤ (left.larger right).value ∧ (right.value : ℚ) ≤ (left.larger right).value ∧
      0 < (left.larger right).den := by
  have hleft' : (0 : ℚ) < left.den := by exact_mod_cast hleft
  have hright' : (0 : ℚ) < right.den := by exact_mod_cast hright
  have hiff : (left.value : ℚ) ≤ right.value ↔ left.num * right.den ≤ right.num * left.den := by
    rw [value_eq, value_eq, div_le_div_iff₀ hleft' hright']
    exact_mod_cast Iff.rfl
  rw [larger]
  split_ifs with hle
  · exact ⟨hiff.mpr hle, le_rfl, hright⟩
  · exact ⟨le_rfl, le_of_not_ge fun hge => hle (hiff.mp hge), hleft⟩

/-- A fraction is marked negative where its value is. -/
theorem isNegative_iff (fraction : Fraction) : fraction.isNegative = true ↔ (fraction.value : ℚ) < 0 := by
  simp only [isNegative, Bool.or_eq_true, Bool.and_eq_true, decide_eq_true_eq, value_eq, div_neg_iff, Int.cast_lt_zero,
    Int.cast_pos]
  tauto

end Fraction

/-! ### Sums by sign -/

namespace SignedSums

/-- The sums of two signs with the values of coefficients added to the sum of their sign. -/
structure Adds (before after : SignedSums) (coefficients : List Fraction) : Prop where
  positive_den : 0 < after.positive.den
  negative_den : 0 < after.negative.den
  positive_eq : (after.positive.value : ℚ) =
    before.positive.value + (coefficients.map fun coefficient => max (coefficient.value : ℚ) 0).sum
  negative_eq : (after.negative.value : ℚ) =
    before.negative.value + (coefficients.map fun coefficient => max (-(coefficient.value : ℚ)) 0).sum

variable {before after : SignedSums} {coefficient : Fraction}

theorem value_neg_iff {fraction : Fraction} (h : 0 < fraction.den) : (fraction.value : ℚ) < 0 ↔ fraction.num < 0 := by
  have hpos : (0 : ℚ) < fraction.den := by exact_mod_cast h
  rw [Fraction.value_eq, div_lt_iff₀ hpos, zero_mul]
  exact_mod_cast Iff.rfl

theorem add_eq_ok (hpositive : 0 < before.positive.den) (hnegative : 0 < before.negative.den)
    (h : before.add coefficient = .ok after) : before.Adds after [coefficient] := by
  rw [add] at h
  split_ifs at h with hden
  obtain ⟨hvalue, hlowest⟩ := Fraction.value_reduced hden
  by_cases hneg : coefficient.reduced.num < 0
  · have hless : (coefficient.value : ℚ) < 0 := hvalue ▸ (value_neg_iff hlowest).mpr hneg
    rw [if_pos hneg] at h
    cases hsub : before.negative.sub? coefficient.reduced with
    | none =>
        rw [hsub] at h
        cases h
    | some negative =>
        rw [hsub] at h
        cases h
        obtain ⟨hdifference, hden'⟩ := Fraction.value_sub? hnegative hlowest hsub
        refine ⟨hpositive, hden', ?_, ?_⟩
        · rw [List.map_singleton, List.sum_singleton, max_eq_right hless.le, add_zero]
        · rw [List.map_singleton, List.sum_singleton, max_eq_left (neg_nonneg.mpr hless.le), hdifference, hvalue,
            sub_eq_add_neg]
  · have hge : (0 : ℚ) ≤ coefficient.value :=
      hvalue ▸ not_lt.mp fun hless => hneg ((value_neg_iff hlowest).mp hless)
    rw [if_neg hneg] at h
    cases hadd : before.positive.add? coefficient.reduced with
    | none =>
        rw [hadd] at h
        cases h
    | some positive =>
        rw [hadd] at h
        cases h
        obtain ⟨hsum, hden'⟩ := Fraction.value_add? hpositive hlowest hadd
        refine ⟨hden', hnegative, ?_, ?_⟩
        · rw [List.map_singleton, List.sum_singleton, max_eq_left hge, hsum, hvalue]
        · rw [List.map_singleton, List.sum_singleton, max_eq_right (neg_nonpos.mpr hge), add_zero]

theorem foldlM_add_eq_ok (coefficients : List Fraction) :
    ∀ {before after : SignedSums}, 0 < before.positive.den → 0 < before.negative.den →
      coefficients.foldlM add before = .ok after → before.Adds after coefficients := by
  induction coefficients with
  | nil =>
      intro before after hpositive hnegative h
      cases h
      exact ⟨hpositive, hnegative, (add_zero _).symm, (add_zero _).symm⟩
  | cons coefficient coefficients ih =>
      intro before after hpositive hnegative h
      rw [List.foldlM_cons, bind_eq_ok] at h
      obtain ⟨middle, hmiddle, hrest⟩ := h
      have hfirst := add_eq_ok hpositive hnegative hmiddle
      have hothers := ih hfirst.positive_den hfirst.negative_den hrest
      have hpos := hfirst.positive_eq
      have hneg := hfirst.negative_eq
      rw [List.map_singleton, List.sum_singleton] at hpos hneg
      refine ⟨hothers.positive_den, hothers.negative_den, ?_, ?_⟩
      · rw [hothers.positive_eq, hpos, List.map_cons, List.sum_cons, add_assoc]
      · rw [hothers.negative_eq, hneg, List.map_cons, List.sum_cons, add_assoc]

end SignedSums

/-- The scale bounds the sum of the positive coefficients and that of the negative ones. -/
theorem scaleOf_eq_ok {coefficients : List Fraction} {scale : Nat} (h : scaleOf coefficients = .ok scale) :
    (coefficients.map fun coefficient => max (coefficient.value : ℚ) 0).sum ≤ scale ∧
      (coefficients.map fun coefficient => max (-(coefficient.value : ℚ)) 0).sum ≤ scale := by
  obtain ⟨sums, hsums, h⟩ := bind_eq_ok.mp h
  have hadds := SignedSums.foldlM_add_eq_ok coefficients (show 0 < SignedSums.zero.positive.den from one_pos)
    (show 0 < SignedSums.zero.negative.den from one_pos) hsums
  have hzero : (SignedSums.zero.positive.value : ℚ) = 0 ∧ (SignedSums.zero.negative.value : ℚ) = 0 :=
    ⟨Fraction.value_zero, Fraction.value_zero⟩
  split_ifs at h with hrange
  cases h
  have hbound : 0 ≤ sums.bound := not_lt.mp fun hneg => hrange (Or.inl hneg)
  obtain ⟨hpositive, hnegative, hden⟩ := Fraction.value_le_larger hadds.positive_den hadds.negative_den
  have hceiling : ((sums.positive.larger sums.negative).value : ℚ) ≤ sums.bound := Fraction.value_le_ceiling hden
  have hcast : ((sums.bound.toNat : Nat) : ℚ) = sums.bound := by
    exact_mod_cast Int.toNat_of_nonneg hbound
  rw [hcast]
  constructor
  · have hsum := hadds.positive_eq
    rw [hzero.1, zero_add] at hsum
    exact hsum ▸ hpositive.trans hceiling
  · have hsum := hadds.negative_eq
    rw [hzero.2, zero_add] at hsum
    exact hsum ▸ hnegative.trans hceiling

/-! ### Scaled terms -/

namespace ScaledTerm

def ratio (term : ScaledTerm) : ℚ :=
  term.numerator / term.denominator

/-- The value that a term multiplies: that of its input, or one. -/
def reads (term : ScaledTerm) (valuation : Nat → ℚ) : ℚ :=
  if term.input = 0 then 1 else valuation term.input

/-- The share of a term in its group. -/
def share (term : ScaledTerm) (valuation : Nat → ℚ) : ℚ :=
  term.ratio * term.reads valuation

theorem ratio_nonneg (term : ScaledTerm) : 0 ≤ term.ratio :=
  div_nonneg (Nat.cast_nonneg _) (Nat.cast_nonneg _)

theorem reads_mem {valuation : Nat → ℚ} (hunit : UnitValued valuation) (term : ScaledTerm) :
    0 ≤ term.reads valuation ∧ term.reads valuation ≤ 1 := by
  rw [reads]
  split_ifs
  · exact ⟨zero_le_one, le_rfl⟩
  · exact hunit _

theorem share_nonneg {valuation : Nat → ℚ} (hunit : UnitValued valuation) (term : ScaledTerm) :
    0 ≤ term.share valuation :=
  mul_nonneg term.ratio_nonneg (term.reads_mem hunit).1

theorem share_le_ratio {valuation : Nat → ℚ} (hunit : UnitValued valuation) (term : ScaledTerm) :
    term.share valuation ≤ term.ratio :=
  mul_le_of_le_one_right term.ratio_nonneg (term.reads_mem hunit).2

/-- A scaled coefficient carries the magnitude of the coefficient over the scale, and its sign. -/
theorem ofCoefficient_eq_ok {scale input : Nat} {coefficient : Fraction} {term : ScaledTerm}
    (hscale : 0 < scale) (hden : coefficient.den ≠ 0) (h : ofCoefficient scale input coefficient = .ok term) :
    term.input = input ∧ 0 < term.denominator ∧ scale * term.ratio = |(coefficient.value : ℚ)| ∧
      (term.negative = true ↔ (coefficient.value : ℚ) < 0) := by
  rw [ofCoefficient] at h
  split_ifs at h
  cases h
  obtain ⟨hvalue, hlowest⟩ := Fraction.value_reduced hden
  have hnatAbs : 0 < coefficient.reduced.den.natAbs := Int.natAbs_pos.mpr hlowest.ne'
  have hscaleq : (scale : ℚ) ≠ 0 := by exact_mod_cast hscale.ne'
  refine ⟨rfl, Nat.mul_pos hnatAbs hscale, ?_, coefficient.isNegative_iff⟩
  have habs : ∀ value : Int, ((value.natAbs : Nat) : ℚ) = |(value : ℚ)| := by
    intro value
    rw [← Int.cast_abs, Int.abs_eq_natAbs, Int.cast_natCast]
  rw [ratio, Nat.cast_mul, habs, habs, ← hvalue, Fraction.value_eq, abs_div, mul_div_assoc', mul_comm (scale : ℚ),
    mul_div_mul_right _ _ hscaleq]

end ScaledTerm

/-- The affine value of coefficients from place `input` on, where place zero multiplies one. -/
def affineFrom (input : Nat) (valuation : Nat → ℚ) : List Fraction → ℚ
  | [] => 0
  | coefficient :: rest =>
    coefficient.value * (if input = 0 then 1 else valuation input) + affineFrom (input + 1) valuation rest

/-- What the terms of scaled coefficients are good for: they belong to inputs in range, each sign adds up to the
scaled sum of that sign, and the difference of the signs' shares is the scaled affine value. -/
structure Scales (scale input : Nat) (coefficients : List Fraction) (terms : List ScaledTerm) : Prop where
  ranges : ∀ term ∈ terms, 0 < term.denominator ∧ input ≤ term.input ∧ term.input < input + coefficients.length
  positive : scale * ((terms.filter (!·.negative)).map ScaledTerm.ratio).sum =
    (coefficients.map fun coefficient => max (coefficient.value : ℚ) 0).sum
  negative : scale * ((terms.filter (·.negative)).map ScaledTerm.ratio).sum =
    (coefficients.map fun coefficient => max (-(coefficient.value : ℚ)) 0).sum
  shares : ∀ valuation, scale * (((terms.filter (!·.negative)).map (·.share valuation)).sum -
    ((terms.filter (·.negative)).map (·.share valuation)).sum) = affineFrom input valuation coefficients

namespace Scales

variable {scale input : Nat} {coefficients : List Fraction} {terms : List ScaledTerm} {coefficient : Fraction}
  {term : ScaledTerm}

theorem nil (scale input : Nat) : Scales scale input [] [] where
  ranges term hterm := absurd hterm List.not_mem_nil
  positive := mul_zero _
  negative := mul_zero _
  shares valuation := by simp [affineFrom]

theorem ranges_cons (h : Scales scale (input + 1) coefficients terms) (hinput : term.input = input)
    (hpos : 0 < term.denominator) : ∀ other ∈ term :: terms, 0 < other.denominator ∧ input ≤ other.input ∧
      other.input < input + (coefficient :: coefficients).length := by
  rw [List.length_cons]
  refine List.forall_mem_cons.mpr ⟨⟨hpos, hinput.ge, by omega⟩, fun other hother => ?_⟩
  obtain ⟨hpos', hge, hlt⟩ := h.ranges other hother
  exact ⟨hpos', by omega, by omega⟩

theorem share_eq (hinput : term.input = input) (hratio : scale * term.ratio = |(coefficient.value : ℚ)|)
    (valuation : Nat → ℚ) : scale * term.share valuation =
      |(coefficient.value : ℚ)| * (if input = 0 then 1 else valuation input) := by
  rw [ScaledTerm.share, ← mul_assoc, hratio, ScaledTerm.reads, hinput]

/-- A term of a coefficient that is not negative joins the positive ones. -/
theorem cons_nonneg (h : Scales scale (input + 1) coefficients terms) (hinput : term.input = input)
    (hpos : 0 < term.denominator) (hratio : scale * term.ratio = |(coefficient.value : ℚ)|)
    (hsign : term.negative = false) (hge : (0 : ℚ) ≤ coefficient.value) :
    Scales scale input (coefficient :: coefficients) (term :: terms) := by
  have hkept : (term :: terms).filter (!·.negative) = term :: terms.filter (!·.negative) :=
    List.filter_cons_of_pos (by rw [hsign]; rfl)
  have hleft : (term :: terms).filter (·.negative) = terms.filter (·.negative) :=
    List.filter_cons_of_neg (by rw [hsign]; exact Bool.false_ne_true)
  refine ⟨h.ranges_cons hinput hpos, ?_, ?_, fun valuation => ?_⟩
  · rw [hkept, List.map_cons, List.sum_cons, List.map_cons, List.sum_cons, mul_add, hratio, h.positive,
      max_eq_left hge, abs_of_nonneg hge]
  · rw [hleft, List.map_cons, List.sum_cons, h.negative, max_eq_right (neg_nonpos.mpr hge), zero_add]
  · rw [hkept, hleft, List.map_cons, List.sum_cons, add_sub_assoc, mul_add, share_eq hinput hratio, h.shares,
      abs_of_nonneg hge, affineFrom]

/-- A term of a negative coefficient joins the negative ones. -/
theorem cons_neg (h : Scales scale (input + 1) coefficients terms) (hinput : term.input = input)
    (hpos : 0 < term.denominator) (hratio : scale * term.ratio = |(coefficient.value : ℚ)|)
    (hsign : term.negative = true) (hless : (coefficient.value : ℚ) < 0) :
    Scales scale input (coefficient :: coefficients) (term :: terms) := by
  have hleft : (term :: terms).filter (!·.negative) = terms.filter (!·.negative) :=
    List.filter_cons_of_neg (by rw [hsign]; exact Bool.false_ne_true)
  have hkept : (term :: terms).filter (·.negative) = term :: terms.filter (·.negative) :=
    List.filter_cons_of_pos hsign
  refine ⟨h.ranges_cons hinput hpos, ?_, ?_, fun valuation => ?_⟩
  · rw [hleft, List.map_cons, List.sum_cons, h.positive, max_eq_right hless.le, zero_add]
  · rw [hkept, List.map_cons, List.sum_cons, List.map_cons, List.sum_cons, mul_add, hratio, h.negative,
      max_eq_left (neg_nonneg.mpr hless.le), abs_of_neg hless]
  · rw [hleft, hkept, List.map_cons, List.sum_cons, affineFrom, ← h.shares valuation, sub_add_eq_sub_sub_swap,
      mul_sub, share_eq hinput hratio, abs_of_neg hless]
    ring

end Scales

theorem scales_of_scaledTerms {scale : Nat} (hscale : 0 < scale) (coefficients : List Fraction) :
    ∀ {input : Nat} {terms : List ScaledTerm}, (∀ coefficient ∈ coefficients, coefficient.den ≠ 0) →
      scaledTerms scale input coefficients = .ok terms → Scales scale input coefficients terms := by
  induction coefficients with
  | nil =>
      intro input terms _ h
      cases h
      exact .nil scale input
  | cons coefficient coefficients ih =>
      intro input terms hdens h
      obtain ⟨hden, hrest⟩ := List.forall_mem_cons.mp hdens
      obtain ⟨term, hterm, h⟩ := bind_eq_ok.mp h
      obtain ⟨others, hothers, h⟩ := bind_eq_ok.mp h
      cases h
      obtain ⟨hinput, hpos, hratio, hsign⟩ := ScaledTerm.ofCoefficient_eq_ok hscale hden hterm
      rcases hneg : term.negative with _ | _
      · have hge : (0 : ℚ) ≤ coefficient.value :=
          not_lt.mp fun hless => Bool.false_ne_true (hneg.symm.trans (hsign.mpr hless))
        exact (ih hrest hothers).cons_nonneg hinput hpos hratio hneg hge
      · exact (ih hrest hothers).cons_neg hinput hpos hratio hneg (hsign.mp hneg)

end ReluLogic
