import ReluLogic.Proofs.LinearProgram.Feasible

/-!
Programs over one input. The feasible points are an interval, and an affine objective is greatest at one of its
ends. The ends are among the ends of the box and the zeros of the constraints, so an oracle that tries these is
exact.
-/

namespace ReluLogic

namespace Interval

/-- The ends of the box and the zeros of the constraints. -/
def ends (constraints : List (Constraint ℚ)) : List ℚ :=
  0 :: 1 :: constraints.map fun constraint =>
    -constraint.form.constant / constraint.form.linear.headD 0

/-- Whether an input lies in the box and satisfies all constraints. -/
def admits (constraints : List (Constraint ℚ)) (input : ℚ) : Bool :=
  0 ≤ input && input ≤ 1 &&
    constraints.all fun constraint => constraint.sign.admits (constraint.form.evaluate [input]) 0

/-- The values of an objective at the ends that are feasible. -/
def values (objective : Affine ℚ) (constraints : List (Constraint ℚ)) : List ℚ :=
  ((ends constraints).filter (admits constraints)).map fun input => objective.evaluate [input]

/-- The oracle that compares the objective at all ends that are feasible. -/
def oracle : Oracle ℚ where
  maximize objective constraints :=
    .ok ((values objective constraints).max?.elim .infeasible .optimal)
  tolerance := 0

variable {constraints : List (Constraint ℚ)} {objective : Affine ℚ} {input : ℚ}

theorem maximize_eq : oracle.maximize objective constraints =
    .ok ((values objective constraints).max?.elim .infeasible .optimal) :=
  rfl

theorem mem_feasible_iff : [input] ∈ feasible 1 constraints ↔ admits constraints input = true := by
  simp only [feasible, unitBox, Set.mem_ofPred_eq, List.length_singleton, true_and, List.forall_mem_singleton,
    admits, Bool.and_eq_true, decide_eq_true_eq, List.all_eq_true]
  rfl

theorem exists_input {point : List ℚ} (h : point ∈ feasible 1 constraints) : ∃ input, point = [input] :=
  List.length_eq_one_iff.mp h.1.1

/-- An affine value that falls below zero on the way from one input to another has its zero on that way. -/
theorem zero_between {constant slope near far : ℚ} (hnear : 0 ≤ constant + slope * near)
    (hfar : constant + slope * far < 0) :
    (near ≤ far → near ≤ -constant / slope ∧ -constant / slope < far) ∧
      (far ≤ near → far < -constant / slope ∧ -constant / slope ≤ near) := by
  have hdrop : slope * (far - near) < 0 := by linarith
  constructor
  · intro hle
    have hslope : slope < 0 := by
      by_contra hslope
      exact absurd hdrop (not_lt.mpr (mul_nonneg (not_lt.mp hslope) (sub_nonneg.mpr hle)))
    rw [le_div_iff_of_neg hslope, div_lt_iff_of_neg hslope]
    constructor <;> linarith
  · intro hle
    have hslope : 0 < slope := by
      by_contra hslope
      exact absurd hdrop (not_lt.mpr (mul_nonneg_of_nonpos_of_nonpos (not_lt.mp hslope) (sub_nonpos.mpr hle)))
    rw [lt_div_iff₀ hslope, div_le_iff₀ hslope]
    constructor <;> linarith

/-- A constraint that is lost on the way from one input to another has its zero on that way. -/
theorem end_between {constraint : Constraint ℚ} (hlength : constraint.form.coefficients.length = 2)
    {near far : ℚ} (hnear : constraint.Holds [near]) (hfar : ¬ constraint.Holds [far]) :
    (near ≤ far → near ≤ -constraint.form.constant / constraint.form.linear.headD 0 ∧
        -constraint.form.constant / constraint.form.linear.headD 0 < far) ∧
      (far ≤ near → far < -constraint.form.constant / constraint.form.linear.headD 0 ∧
        -constraint.form.constant / constraint.form.linear.headD 0 ≤ near) := by
  obtain ⟨⟨coefficients⟩, sign⟩ := constraint
  obtain ⟨constant, slope, rfl⟩ := List.length_eq_two.mp hlength
  simp only [Constraint.Holds, Affine.evaluate_pair] at hnear hfar
  simp only [Affine.constant, Affine.linear, List.headD_cons, List.tail_cons]
  cases sign with
  | geq =>
      rw [Sign.admits_geq] at hnear hfar
      exact zero_between hnear (not_le.mp hfar)
  | leq =>
      rw [Sign.admits_leq] at hnear hfar
      have hflip := @zero_between (-constant) (-slope) near far
        (by linarith) (by linarith)
      rwa [neg_div_neg_eq, ← neg_div_neg_eq, neg_neg, ← neg_div_neg_eq, neg_neg] at hflip

/-- From a feasible input there is a feasible end to its right. -/
theorem exists_end_ge (hconstraints : Uniform 1 constraints) (h : [input] ∈ feasible 1 constraints) :
    ∃ last ∈ ends constraints, input ≤ last ∧ [last] ∈ feasible 1 constraints := by
  obtain ⟨hzero, hone⟩ := h.1.2 input List.mem_cons_self
  obtain ⟨last, hlast, hleast⟩ := ((ends constraints).filter (input ≤ ·)).toFinset.exists_min_image id
    ⟨1, by simp [ends, hone]⟩
  simp only [List.mem_toFinset, List.mem_filter, decide_eq_true_eq, id_eq, and_imp] at hlast hleast
  refine ⟨last, hlast.1, hlast.2, ⟨rfl, List.forall_mem_singleton.mpr
    ⟨hzero.trans hlast.2, hleast 1 (by simp [ends]) hone⟩⟩, fun constraint hmem => ?_⟩
  by_contra hlost
  obtain ⟨hfrom, hto⟩ := (end_between (hconstraints constraint hmem) (h.2 constraint hmem) hlost).1 hlast.2
  refine absurd (hleast _ ?_ hfrom) (not_le.mpr hto)
  exact List.mem_cons_of_mem _ (List.mem_cons_of_mem _ (List.mem_map.mpr ⟨constraint, hmem, rfl⟩))

/-- From a feasible input there is a feasible end to its left. -/
theorem exists_end_le (hconstraints : Uniform 1 constraints) (h : [input] ∈ feasible 1 constraints) :
    ∃ first ∈ ends constraints, first ≤ input ∧ [first] ∈ feasible 1 constraints := by
  obtain ⟨hzero, hone⟩ := h.1.2 input List.mem_cons_self
  obtain ⟨first, hfirst, hgreatest⟩ := ((ends constraints).filter (· ≤ input)).toFinset.exists_max_image id
    ⟨0, by simp [ends, hzero]⟩
  simp only [List.mem_toFinset, List.mem_filter, decide_eq_true_eq, id_eq, and_imp] at hfirst hgreatest
  refine ⟨first, hfirst.1, hfirst.2, ⟨rfl, List.forall_mem_singleton.mpr
    ⟨hgreatest 0 (by simp [ends]) hzero, hfirst.2.trans hone⟩⟩, fun constraint hmem => ?_⟩
  by_contra hlost
  obtain ⟨hfrom, hto⟩ := (end_between (hconstraints constraint hmem) (h.2 constraint hmem) hlost).2 hfirst.2
  refine absurd (hgreatest _ ?_ hto) (not_le.mpr hfrom)
  exact List.mem_cons_of_mem _ (List.mem_cons_of_mem _ (List.mem_map.mpr ⟨constraint, hmem, rfl⟩))

/-- An affine objective is at least as large at some feasible end as at a given feasible input. -/
theorem exists_end_evaluate_ge (hobjective : objective.coefficients.length = 2)
    (hconstraints : Uniform 1 constraints) (h : [input] ∈ feasible 1 constraints) :
    ∃ best ∈ ends constraints, [best] ∈ feasible 1 constraints ∧
      objective.evaluate [input] ≤ objective.evaluate [best] := by
  obtain ⟨coefficients⟩ := objective
  obtain ⟨constant, slope, rfl⟩ := List.length_eq_two.mp hobjective
  rcases le_total 0 slope with hslope | hslope
  · obtain ⟨last, hmem, hle, hlast⟩ := exists_end_ge hconstraints h
    refine ⟨last, hmem, hlast, ?_⟩
    rw [Affine.evaluate_pair, Affine.evaluate_pair]
    exact add_le_add_right (mul_le_mul_of_nonneg_left hle hslope) constant
  · obtain ⟨first, hmem, hle, hfirst⟩ := exists_end_le hconstraints h
    refine ⟨first, hmem, hfirst, ?_⟩
    rw [Affine.evaluate_pair, Affine.evaluate_pair]
    exact add_le_add_right (mul_le_mul_of_nonpos_left hle hslope) constant

theorem oracle_exact : oracle.Exact 1 where
  tolerance_eq := rfl
  optimal objective constraints hobjective hconstraints hpoint := by
    obtain ⟨point, hmem⟩ := hpoint
    obtain ⟨input, rfl⟩ := exists_input hmem
    obtain ⟨best, hbest, hfeasible, -⟩ := exists_end_evaluate_ge hobjective hconstraints hmem
    have hne : values objective constraints ≠ [] := by
      refine List.ne_nil_of_mem (List.mem_map.mpr ⟨best, List.mem_filter.mpr ⟨hbest, ?_⟩, rfl⟩)
      exact mem_feasible_iff.mp hfeasible
    obtain ⟨value, hvalue⟩ := Option.isSome_iff_exists.mp (List.isSome_max?_iff.mpr hne)
    obtain ⟨hin, hupper⟩ := List.max?_eq_some_iff.mp hvalue
    refine ⟨value, by rw [maximize_eq, hvalue, Option.elim_some], ?_, ?_⟩
    · obtain ⟨last, hlast, rfl⟩ := List.mem_map.mp hin
      exact ⟨[last], mem_feasible_iff.mpr (List.mem_filter.mp hlast).2, rfl⟩
    · rintro _ ⟨other, hother, rfl⟩
      obtain ⟨place, rfl⟩ := exists_input hother
      obtain ⟨last, hlast, hfeasible', hle⟩ := exists_end_evaluate_ge hobjective hconstraints hother
      refine hle.trans (hupper _ (List.mem_map.mpr ⟨last, List.mem_filter.mpr ⟨hlast, ?_⟩, rfl⟩))
      exact mem_feasible_iff.mp hfeasible'
  infeasible objective constraints _ _ hempty := by
    have hnil : (ends constraints).filter (admits constraints) = [] := by
      refine List.filter_eq_nil_iff.mpr fun input _ hadmits => ?_
      have hmem := mem_feasible_iff.mpr hadmits
      rw [hempty] at hmem
      exact hmem
    have hvalues : values objective constraints = [] := congrArg (List.map _) hnil
    rw [maximize_eq, hvalues, List.max?_nil, Option.elim_none]

end Interval

end ReluLogic
