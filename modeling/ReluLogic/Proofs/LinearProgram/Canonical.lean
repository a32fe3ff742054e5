import ReluLogic.LinearProgram.Simplex
import ReluLogic.Proofs.Rational

/-!
Tableaus as systems of linear equations. A tableau in canonical form has a unit vector in the basic column
of every row; then it has a basic solution, and on every solution the objective is its value at the basic
solution plus what the other columns gain. A pivot on an entry other than zero keeps the solutions and the
canonical form.
-/

namespace ReluLogic

namespace Tableau

variable {rows columns : Nat}

def entry (tableau : Tableau ℚ rows columns) (row : Fin rows) (column : Fin columns) : ℚ :=
  (tableau.entries.get row).get column

def bound (tableau : Tableau ℚ rows columns) (row : Fin rows) : ℚ :=
  tableau.bounds.get row

def basic (tableau : Tableau ℚ rows columns) (row : Fin rows) : Fin columns :=
  tableau.basis.get row

/-- The values of the columns satisfy the equation of every row. -/
def Solves (tableau : Tableau ℚ rows columns) (values : Fin columns → ℚ) : Prop :=
  ∀ row, ∑ column, tableau.entry row column * values column = tableau.bound row

/-- Every basic column is a unit vector with its one in its own row. -/
def Canonical (tableau : Tableau ℚ rows columns) : Prop :=
  ∀ row other, tableau.entry other (tableau.basic row) = if other = row then 1 else 0

def Nonnegative (tableau : Tableau ℚ rows columns) : Prop :=
  ∀ row, 0 ≤ tableau.bound row

/-- Amounts of the rows put on their basic columns; all other columns are zero. -/
def spread (tableau : Tableau ℚ rows columns) (amounts : Fin rows → ℚ) (column : Fin columns) : ℚ :=
  ∑ row, if tableau.basic row = column then amounts row else 0

/-- The basic columns have the bounds of their rows, all others are zero. -/
def basicSolution (tableau : Tableau ℚ rows columns) : Fin columns → ℚ :=
  tableau.spread tableau.bound

/-- The value of an objective without constant term. -/
def objective (costs : Vector ℚ columns) (values : Fin columns → ℚ) : ℚ :=
  ∑ column, costs.get column * values column

variable {tableau : Tableau ℚ rows columns} {costs : Vector ℚ columns}

theorem Canonical.basic_injective (h : tableau.Canonical) : Function.Injective tableau.basic := by
  intro row other heq
  by_contra hne
  have hone := h row row
  have hzero := h other row
  rw [← heq, if_neg hne] at hzero
  rw [if_pos rfl, hzero] at hone
  exact zero_ne_one hone

/-! ### The basic solution -/

theorem basicSum_eq (tableau : Tableau ℚ rows columns) (costs : Vector ℚ columns)
    (value : Fin rows → ℚ) :
    tableau.basicSum costs value = ∑ row, costs.get (tableau.basic row) * value row := by
  rw [basicSum, Scalar.sum_eq_sum, Fin.sum_univ_def]
  rfl

/-- A sum over all columns against spread amounts runs over the basic columns alone. -/
theorem sum_mul_spread (weights : Fin columns → ℚ) (amounts : Fin rows → ℚ) :
    ∑ column, weights column * tableau.spread amounts column =
      ∑ row, weights (tableau.basic row) * amounts row := by
  simp only [spread, Finset.mul_sum, mul_ite, mul_zero]
  rw [Finset.sum_comm]
  refine Finset.sum_congr rfl fun row _ => ?_
  rw [Finset.sum_ite_eq, if_pos (Finset.mem_univ _)]

theorem spread_nonneg {amounts : Fin rows → ℚ} (h : ∀ row, 0 ≤ amounts row) (column : Fin columns) :
    0 ≤ tableau.spread amounts column := by
  refine Finset.sum_nonneg fun row _ => ?_
  split_ifs
  · exact h row
  · exact le_rfl

theorem spread_of_not_basic {column : Fin columns} (h : ∀ row, tableau.basic row ≠ column)
    (amounts : Fin rows → ℚ) : tableau.spread amounts column = 0 :=
  Finset.sum_eq_zero fun row _ => if_neg (h row)

/-- In canonical form the row of an equation reads the amount of its own basic column. -/
theorem Canonical.sum_entry_mul_spread (h : tableau.Canonical) (amounts : Fin rows → ℚ)
    (row : Fin rows) :
    ∑ column, tableau.entry row column * tableau.spread amounts column = amounts row := by
  rw [sum_mul_spread]
  simp only [h _ row, ite_mul, one_mul, zero_mul]
  rw [Finset.sum_ite_eq, if_pos (Finset.mem_univ _)]

theorem Canonical.solves_basicSolution (h : tableau.Canonical) :
    tableau.Solves tableau.basicSolution :=
  h.sum_entry_mul_spread tableau.bound

theorem objective_basicSolution :
    objective costs tableau.basicSolution = tableau.objectiveValue costs := by
  rw [objective, basicSolution, sum_mul_spread, objectiveValue, basicSum_eq]
  rfl

/-! ### Reduced costs -/

theorem reducedCost_of_basic (row : Fin rows) :
    tableau.reducedCost costs (tableau.basic row) = 0 := by
  rw [reducedCost, if_pos]
  rw [Vector.contains_iff_mem]
  exact Vector.getElem_mem row.isLt

theorem not_basic_of_reducedCost_ne_zero {column : Fin columns}
    (h : tableau.reducedCost costs column ≠ 0) (row : Fin rows) : tableau.basic row ≠ column := by
  rintro rfl
  exact h (reducedCost_of_basic row)

/-- In canonical form the general formula for the gain of a column holds for basic columns too. -/
theorem Canonical.reducedCost_eq (h : tableau.Canonical) (costs : Vector ℚ columns)
    (column : Fin columns) :
    tableau.reducedCost costs column =
      costs.get column - ∑ row, costs.get (tableau.basic row) * tableau.entry row column := by
  by_cases hbasic : ∃ row, tableau.basic row = column
  · obtain ⟨row, rfl⟩ := hbasic
    rw [reducedCost_of_basic]
    simp only [h row, mul_ite, mul_one, mul_zero]
    rw [Finset.sum_ite_eq', if_pos (Finset.mem_univ _), sub_self]
  · have hnot : ¬tableau.basis.contains column = true := by
      rw [Vector.contains_iff_mem, Vector.mem_iff_getElem]
      rintro ⟨row, hrow, heq⟩
      exact hbasic ⟨⟨row, hrow⟩, heq⟩
    rw [reducedCost, if_neg hnot, basicSum_eq]
    rfl

/-- On a solution the objective is its value at the basic solution plus the gains of the columns. -/
theorem Canonical.objective_eq (h : tableau.Canonical) {values : Fin columns → ℚ}
    (hsolves : tableau.Solves values) :
    objective costs values =
      tableau.objectiveValue costs + ∑ column, tableau.reducedCost costs column * values column := by
  have hvalue : tableau.objectiveValue costs =
      ∑ column, (∑ row, costs.get (tableau.basic row) * tableau.entry row column) * values column := by
    calc tableau.objectiveValue costs
        = ∑ row, costs.get (tableau.basic row) * tableau.bound row := basicSum_eq _ _ _
      _ = ∑ row, ∑ column,
            costs.get (tableau.basic row) * tableau.entry row column * values column := by
          refine Finset.sum_congr rfl fun row _ => ?_
          rw [← hsolves row, Finset.mul_sum]
          exact Finset.sum_congr rfl fun column _ => (mul_assoc _ _ _).symm
      _ = _ := by
          rw [Finset.sum_comm]
          exact Finset.sum_congr rfl fun column _ => (Finset.sum_mul _ _ _).symm
  rw [hvalue, objective, ← Finset.sum_add_distrib]
  refine Finset.sum_congr rfl fun column _ => ?_
  rw [h.reducedCost_eq]
  ring

/-- Where no column in use gains, no solution without negative values exceeds the basic one. -/
theorem Canonical.objective_le (h : tableau.Canonical) (costs : Vector ℚ columns) {values : Fin columns → ℚ}
    (hsolves : tableau.Solves values) (hnonneg : ∀ column, 0 ≤ values column)
    (hgain : ∀ column, tableau.reducedCost costs column ≤ 0 ∨ values column = 0) :
    objective costs values ≤ tableau.objectiveValue costs := by
  rw [h.objective_eq hsolves]
  refine add_le_of_nonpos_right (Finset.sum_nonpos fun column _ => ?_)
  rcases hgain column with hcost | hzero
  · exact mul_nonpos_of_nonpos_of_nonneg hcost (hnonneg column)
  · rw [hzero, mul_zero]

/-! ### Pivots -/

section Pivot

variable (tableau) (row : Fin rows) (column : Fin columns)

theorem pivot_entry (other : Fin rows) (place : Fin columns) :
    (tableau.pivot row column).entry other place =
      if other = row then tableau.entry row place / tableau.entry row column
      else tableau.entry other place -
        tableau.entry other column * (tableau.entry row place / tableau.entry row column) := by
  have hentries : (tableau.pivot row column).entries.get other =
      if other = row then (tableau.entries.get row).map (· / tableau.entry row column)
      else if tableau.entry other column == 0 then tableau.entries.get other
      else Vector.zipWith (fun entry p => entry - tableau.entry other column * p)
        (tableau.entries.get other) ((tableau.entries.get row).map (· / tableau.entry row column)) :=
    Vector.getElem_ofFn other.isLt
  rw [entry, hentries]
  split_ifs with hrow hzero
  · exact Vector.getElem_map (· / tableau.entry row column) place.isLt
  · change tableau.entry other place = _
    rw [eq_of_beq hzero, zero_mul, sub_zero]
  · refine (Vector.getElem_zipWith place.isLt).trans ?_
    rw [Vector.getElem_map]
    rfl

theorem pivot_bound (other : Fin rows) :
    (tableau.pivot row column).bound other =
      if other = row then tableau.bound row / tableau.entry row column
      else tableau.bound other -
        tableau.entry other column * (tableau.bound row / tableau.entry row column) := by
  have hbounds : (tableau.pivot row column).bound other =
      if other = row then tableau.bound row / tableau.entry row column
      else if tableau.entry other column == 0 then tableau.bound other
      else tableau.bound other -
        tableau.entry other column * (tableau.bound row / tableau.entry row column) :=
    Vector.getElem_ofFn other.isLt
  rw [hbounds]
  split_ifs with hrow hzero
  · rfl
  · rw [eq_of_beq hzero, zero_mul, sub_zero]
  · rfl

theorem pivot_basic (other : Fin rows) :
    (tableau.pivot row column).basic other = if other = row then column else tableau.basic other := by
  simp only [basic, pivot, Vector.get_eq_getElem, Vector.getElem_set, Fin.ext_iff, eq_comm]

end Pivot

variable {row : Fin rows} {column : Fin columns}

theorem pivot_solves_iff (hpivot : tableau.entry row column ≠ 0) (values : Fin columns → ℚ) :
    (tableau.pivot row column).Solves values ↔ tableau.Solves values := by
  have hrow : ∑ place, (tableau.pivot row column).entry row place * values place =
      (∑ place, tableau.entry row place * values place) / tableau.entry row column := by
    simp only [pivot_entry, if_pos, Finset.sum_div, div_mul_eq_mul_div]
  have hother : ∀ other, other ≠ row →
      ∑ place, (tableau.pivot row column).entry other place * values place =
        ∑ place, tableau.entry other place * values place -
          tableau.entry other column *
            ((∑ place, tableau.entry row place * values place) / tableau.entry row column) := by
    intro other hne
    simp only [pivot_entry, if_neg hne, sub_mul, Finset.sum_sub_distrib, Finset.sum_div,
      Finset.mul_sum]
    congr 1
    refine Finset.sum_congr rfl fun place _ => ?_
    ring
  constructor
  · intro h other
    have hr := h row
    rw [hrow, pivot_bound, if_pos rfl, div_left_inj' hpivot] at hr
    by_cases heq : other = row
    · rw [heq, hr]
    · have ho := h other
      rw [hother other heq, pivot_bound, if_neg heq, hr] at ho
      exact sub_left_inj.mp ho
  · intro h other
    by_cases heq : other = row
    · rw [heq, hrow, h row, pivot_bound, if_pos rfl]
    · rw [hother other heq, h row, h other, pivot_bound, if_neg heq]

theorem Canonical.pivot (h : tableau.Canonical) (hpivot : tableau.entry row column ≠ 0) :
    (tableau.pivot row column).Canonical := by
  intro first other
  rw [pivot_basic, pivot_entry]
  by_cases hfirst : first = row
  · rw [if_pos hfirst, hfirst]
    by_cases hother : other = row
    · rw [if_pos hother, if_pos hother, div_self hpivot]
    · rw [if_neg hother, if_neg hother, div_self hpivot, mul_one, sub_self]
  · -- The row of the pivot has a zero in the basic column of every other row, so nothing is taken off.
    rw [if_neg hfirst, h first row, if_neg (Ne.symm hfirst), zero_div, mul_zero, sub_zero]
    by_cases hother : other = row
    · rw [if_pos hother, if_neg]
      rintro rfl
      exact hfirst hother
    · rw [if_neg hother, h first other]

end Tableau

end ReluLogic
