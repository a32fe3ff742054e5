import ReluLogic.Proofs.LinearProgram.TwoPhase

/-!
The simplex method with slack. The one tolerance decides which columns gain, which rows limit them and whether the
optimum of phase one counts as zero. Rows are still only replaced by equivalent ones, so the optimum of phase one
falls short by at most the tolerance for each unit of a column. A program with a point can be called infeasible
therefore, but only where phase one is stuck at a row whose constraint leaves next to nothing: on all points of the
program its form stays within the tolerance for each unit of the other columns. Small coefficients make it so indeed:
`thin` holds most of the box and is called empty.
-/

namespace ReluLogic

namespace Tableau

variable {rows columns : Nat} {start tableau next final : Tableau ℚ rows columns} {costs : Vector ℚ columns}
  {allowed budget fuel : Nat} {tolerance : ℚ} {row : Fin rows} {column : Fin columns}

/-! ### Rounds with slack -/

theorem entering?_eq_none_of_slack (h : tableau.entering? costs allowed tolerance = none)
    (hallowed : column.val < allowed) : tableau.reducedCost costs column ≤ tolerance := by
  have hnot := List.find?_eq_none.mp h column (List.mem_finRange column)
  simpa [hallowed] using hnot

/-- The search for the leaving row holds rows with a large entry only. -/
theorem lt_entry_of_improve {best : Option (Candidate ℚ rows)}
    (h : ∀ held ∈ best, tolerance < tableau.entry held.1 column) (row : Fin rows) :
    ∀ held ∈ tableau.improve tolerance column best row, tolerance < tableau.entry held.1 column := by
  intro held hheld
  rw [improve] at hheld
  split_ifs at hheld with hsmall
  · exact h held hheld
  · have hrow : tolerance < tableau.entry row column := not_le.mp hsmall
    cases best with
    | none =>
        cases hheld
        exact hrow
    | some best =>
        cases hheld
        rw [preferred]
        split_ifs
        · exact hrow
        · exact hrow
        · exact h best rfl

theorem lt_entry_of_leaving? (h : tableau.leaving? tolerance column = some row) :
    tolerance < tableau.entry row column := by
  obtain ⟨held, hfold, rfl⟩ := Option.map_eq_some_iff.mp h
  have hinvariant : ∀ (seen : List (Fin rows)) (best : Option (Candidate ℚ rows)),
      (∀ held ∈ best, tolerance < tableau.entry held.1 column) →
        ∀ held ∈ seen.foldl (tableau.improve tolerance column) best, tolerance < tableau.entry held.1 column := by
    intro seen
    induction seen with
    | nil => exact fun _ hbest => hbest
    | cons row seen ih => exact fun best hbest => ih _ (lt_entry_of_improve hbest row)
  exact hinvariant _ none (fun _ hnone => by cases hnone) held hfold

/-- A tableau in canonical form with the solutions of another one. -/
structure Restates (start tableau : Tableau ℚ rows columns) : Prop where
  canonical : tableau.Canonical
  solves_iff : ∀ values, tableau.Solves values ↔ start.Solves values

/-- A round with slack divides by a positive entry. -/
theorem Restates.step (h : Restates start tableau) (htolerance : 0 ≤ tolerance)
    (hstep : tableau.step costs allowed tolerance = .pivoted next) : Restates start next := by
  rw [Tableau.step] at hstep
  split at hstep
  · cases hstep
  · rename_i column _
    split at hstep
    · cases hstep
    · rename_i row hleaving
      cases hstep
      have hpivot : tableau.entry row column ≠ 0 := (htolerance.trans_lt (lt_entry_of_leaving? hleaving)).ne'
      exact ⟨h.canonical.pivot hpivot, fun values => (pivot_solves_iff hpivot values).trans (h.solves_iff values)⟩

/-- A run with slack ends where no allowed column gains more than the tolerance. -/
theorem Restates.optimize (h : Restates start tableau) (htolerance : 0 ≤ tolerance)
    (hrun : optimize costs allowed tolerance budget fuel tableau = .ok final) :
    Restates start final ∧ ∀ column : Fin columns, column.val < allowed →
      final.reducedCost costs column ≤ tolerance := by
  induction fuel generalizing tableau with
  | zero => cases hrun
  | succ fuel ih =>
      rw [Tableau.optimize] at hrun
      cases hstep : tableau.step costs allowed tolerance with
      | optimal =>
          rw [hstep] at hrun
          cases hrun
          refine ⟨h, fun column hallowed => ?_⟩
          rw [Tableau.step] at hstep
          split at hstep
          · exact entering?_eq_none_of_slack ‹_› hallowed
          · split at hstep <;> cases hstep
      | unbounded =>
          rw [hstep] at hrun
          cases hrun
      | pivoted next =>
          rw [hstep] at hrun
          exact ih (h.step htolerance hstep) hrun

/-- Where no column gains more than the tolerance, a solution without negative values exceeds the basic one by at
most what one column gains and the tolerance for each unit of the others. -/
theorem Canonical.objective_le_add (h : tableau.Canonical) {values : Fin columns → ℚ}
    (hsolves : tableau.Solves values) (hnonneg : ∀ column, 0 ≤ values column)
    (hgain : ∀ column, tableau.reducedCost costs column ≤ tolerance) (place : Fin columns) :
    objective costs values ≤ tableau.objectiveValue costs + (tableau.reducedCost costs place * values place +
      tolerance * (∑ column, values column - values place)) := by
  rw [h.objective_eq hsolves, ← Finset.add_sum_erase _ _ (Finset.mem_univ place),
    ← Finset.sum_erase_eq_sub (Finset.mem_univ place), Finset.mul_sum]
  refine add_le_add_right (add_le_add_right (Finset.sum_le_sum fun column _ => ?_) _) _
  exact mul_le_mul_of_nonneg_right (hgain column) (hnonneg column)

/-- What the columns gain between two solutions is what they cost. -/
theorem Canonical.sum_reducedCost_sub (h : tableau.Canonical) (costs : Vector ℚ columns)
    {values more : Fin columns → ℚ} (hsolves : tableau.Solves values) (hmore : tableau.Solves more) :
    ∑ column, tableau.reducedCost costs column * (more column - values column) =
      ∑ column, costs.get column * (more column - values column) := by
  simp only [mul_sub, Finset.sum_sub_distrib]
  change _ = objective costs more - objective costs values
  rw [h.objective_eq hsolves, h.objective_eq hmore]
  ring

end Tableau

/-! ### Units of a solution -/

theorem Inequality.slack_ofConstraint {constraint : Constraint ℚ} {point : List ℚ} (h : constraint.Holds point) :
    (Inequality.ofConstraint constraint).slack point = |constraint.form.evaluate point| := by
  obtain ⟨form, sign⟩ := constraint
  cases sign with
  | geq =>
      rw [Constraint.Holds, Sign.admits_geq] at h
      rw [abs_of_nonneg h, Affine.evaluate_eq, slack]
      simp only [ofConstraint, Affine.sum_zipWith_neg]
      ring
  | leq =>
      rw [Constraint.Holds, Sign.admits_leq] at h
      rw [abs_of_nonpos h, Affine.evaluate_eq, slack]
      simp only [ofConstraint]
      ring

/-- What the upper faces of the box leave. -/
theorem Inequality.sum_slack_box {dim : Nat} {point : List ℚ} (hlength : point.length = dim) :
    ((Inequality.box dim).map fun inequality => inequality.slack point).sum = dim - point.sum := by
  have hface : ((Inequality.box dim).map fun inequality => inequality.slack point) =
      point.map fun value => 1 - value := by
    refine List.ext_getElem (by simp [Inequality.box, hlength]) fun place hplace hplace' => ?_
    have hinput : place < dim := by simpa [hlength] using hplace'
    rw [List.getElem_map, List.getElem_map]
    simp only [Inequality.box, List.getElem_map, List.getElem_range, Inequality.slack]
    rw [sum_zipWith_face hlength hinput, List.getD_eq_getElem _ _ (hlength ▸ hinput)]
  rw [hface, ← hlength]
  clear hlength hface
  induction point with
  | nil => simp
  | cons value point ih =>
      simp only [List.map_cons, List.sum_cons, List.length_cons, ih]
      push_cast
      ring

namespace Tableau

variable {dim : Nat} {inequalities : List (Inequality ℚ)}

/-- The units of a proper solution are those of its point and what the inequalities leave. -/
theorem sum_values {values : Fin (width dim inequalities) → ℚ} (hsolves : (build dim inequalities).Solves values)
    (hproper : Proper dim inequalities values) :
    ∑ column, values column = (pointOf dim inequalities values).sum +
      (inequalities.map fun inequality => inequality.slack (pointOf dim inequalities values)).sum := by
  have hslack := slack_of_proper hsolves hproper
  obtain ⟨extended, rfl⟩ := exists_extension values
  have hartificial : ∑ place ∈ Finset.range (Inequality.artificials inequalities),
      extended (dim + inequalities.length + place) = 0 :=
    Finset.sum_eq_zero fun place hplace =>
      hproper ⟨_, Nat.add_lt_add_left (Finset.mem_range.mp hplace) _⟩ (Nat.le_add_right _ _)
  have hpoint : ∑ place ∈ Finset.range dim, extended place =
      (pointOf dim inequalities fun column => extended column).sum := by
    rw [pointOf, List.sum_ofFn]
    exact (Fin.sum_univ_eq_sum_range extended dim).symm
  have hslacks : ∑ place ∈ Finset.range inequalities.length, extended (dim + place) =
      (inequalities.map fun inequality =>
        inequality.slack (pointOf dim inequalities fun column => extended column)).sum := by
    rw [← Fin.sum_univ_fun_getElem, ← Fin.sum_univ_eq_sum_range fun place => extended (dim + place)]
    exact Finset.sum_congr rfl fun row _ => hslack row
  rw [← hpoint, ← hslacks, Fin.sum_univ_eq_sum_range extended, width, ordinary, Finset.sum_range_add,
    Finset.sum_range_add, hartificial, add_zero]

/-! ### Where phase one is stuck -/

variable {row : Fin inequalities.length} {tableau : Tableau ℚ inequalities.length (width dim inequalities)}

/-- The slack of a row that the origin violates can grow together with the artificial column of the row, so what the
two gain is what they cost. -/
theorem Restates.reducedCost_slackColumn_add (h : Restates (build dim inequalities) tableau)
    (hcut : (inequalities.get row).cutsOrigin = true) {column : Fin (width dim inequalities)}
    (hcolumn : column.val = artificialColumn dim inequalities row) (costs : Vector ℚ (width dim inequalities)) :
    tableau.reducedCost costs (slackColumn dim inequalities row) + tableau.reducedCost costs column =
      costs.get (slackColumn dim inequalities row) + costs.get column := by
  have hgrow : ∀ weights : Fin (width dim inequalities) → ℚ, ∑ place, weights place *
      (fill dim inequalities 0 (Pi.single (artificialColumn dim inequalities row) 1) place -
        fill dim inequalities 0 0 place) = weights (slackColumn dim inequalities row) + weights column := by
    intro weights
    have hplaces : ∀ place : Fin (width dim inequalities),
        (place.val = dim + row ↔ place = slackColumn dim inequalities row) ∧
          (place.val = artificialColumn dim inequalities row ↔ place = column) := fun place =>
      ⟨⟨fun heq => Fin.ext heq, congrArg Fin.val⟩, by rw [← hcolumn, Fin.ext_iff]⟩
    simp only [fill_single 0 hcut, hplaces, mul_add, Finset.sum_add_distrib, mul_ite, mul_one, mul_zero,
      Finset.sum_ite_eq', Finset.mem_univ, if_true]
  have hgains := h.canonical.sum_reducedCost_sub costs ((h.solves_iff _).mpr (solves_fill 0 0))
    ((h.solves_iff _).mpr (solves_fill 0 (Pi.single (artificialColumn dim inequalities row) 1)))
  rwa [hgrow, hgrow fun place => costs.get place] at hgains

/-- Without basic artificial columns the objective of phase one is zero. -/
theorem Cleared.objectiveValue_phaseOne (h : tableau.Cleared) :
    tableau.objectiveValue (Simplex.phaseOneCosts _ (ordinary dim inequalities)) = 0 := by
  rw [objectiveValue, basicSum_eq]
  refine Finset.sum_eq_zero fun place _ => ?_
  rw [get_phaseOneCosts, if_pos (h place), zero_mul]

/-- Short of zero, some row that the origin violates has kept its artificial column, and its slack loses a unit. -/
theorem Restates.exists_reducedCost_eq (h : Restates (build dim inequalities) tableau)
    (hvalue : tableau.objectiveValue (Simplex.phaseOneCosts _ (ordinary dim inequalities)) ≠ 0) :
    ∃ row : Fin inequalities.length, (inequalities.get row).cutsOrigin = true ∧
      tableau.reducedCost (Simplex.phaseOneCosts _ (ordinary dim inequalities)) (slackColumn dim inequalities row) =
        -1 := by
  obtain ⟨place, hplace⟩ : ∃ place, ordinary dim inequalities ≤ (tableau.basic place).val := by
    by_contra hnone
    have hcleared : tableau.Cleared := fun place => not_le.mp fun hle => hnone ⟨place, hle⟩
    exact hvalue hcleared.objectiveValue_phaseOne
  obtain ⟨row, hcut, hrank⟩ :=
    Inequality.exists_artificialRank (Nat.sub_lt_left_of_lt_add hplace (tableau.basic place).isLt)
  have hcolumn : (tableau.basic place).val = artificialColumn dim inequalities row := by
    rw [artificialColumn, hrank, Nat.add_sub_cancel' hplace]
  have hslack : (slackColumn dim inequalities row).val < ordinary dim inequalities :=
    Nat.add_lt_add_left row.isLt dim
  have hgains := h.reducedCost_slackColumn_add hcut hcolumn (Simplex.phaseOneCosts _ (ordinary dim inequalities))
  rw [reducedCost_of_basic, get_phaseOneCosts, get_phaseOneCosts, if_pos hslack, if_neg (not_lt.mpr hplace),
    add_zero, zero_add] at hgains
  exact ⟨row, hcut, hgains⟩

/-- Phase one with slack fails at a row that the origin violates: each proper solution leaves it less than the
tolerance for each unit of the other columns but one. -/
theorem phaseOne_eq_none {tolerance : ℚ} {budget : Nat} (htolerance : 0 ≤ tolerance)
    (h : Simplex.phaseOne ⟨tolerance, budget⟩ dim inequalities = .ok none) :
    ∃ row : Fin inequalities.length, (inequalities.get row).cutsOrigin = true ∧
      ∀ values, (build dim inequalities).Solves values → (∀ column, 0 ≤ values column) →
        Proper dim inequalities values →
          (inequalities.get row).slack (pointOf dim inequalities values) < tolerance *
            (∑ column, values column - (inequalities.get row).slack (pointOf dim inequalities values) - 1) := by
  rw [Simplex.phaseOne] at h
  split_ifs at h with hartificials
  · cases h
  · obtain ⟨final, hrun, hfinal⟩ := bind_eq_ok.mp h
    obtain ⟨hrestates, hgain⟩ := Restates.optimize ⟨build_canonical, fun _ => Iff.rfl⟩ htolerance hrun
    split_ifs at hfinal with hvalue
    · obtain ⟨row, hcut, hloss⟩ := hrestates.exists_reducedCost_eq
        (hvalue.trans_le (neg_nonpos.mpr htolerance)).ne
      refine ⟨row, hcut, fun values hsolves hnonneg hproper => ?_⟩
      have hle := hrestates.canonical.objective_le_add ((hrestates.solves_iff values).mpr hsolves) hnonneg
        (fun column => hgain column column.isLt) (slackColumn dim inequalities row)
      have hslack : values (slackColumn dim inequalities row) =
          (inequalities.get row).slack (pointOf dim inequalities values) := slack_of_proper hsolves hproper row
      rw [objective_phaseOne_of_proper hproper, hloss, hslack] at hle
      linarith
    · cases hfinal

end Tableau

namespace Simplex

open Tableau

variable {dim budget : Nat} {tolerance : ℚ} {objective : Affine ℚ} {constraints : List (Constraint ℚ)} {point : List ℚ}

/-- A program is called infeasible by phase one. -/
theorem phaseOne_of_infeasible (hobjective : objective.coefficients.length = dim + 1)
    (h : maximize ⟨tolerance, budget⟩ objective constraints = .ok .infeasible) :
    phaseOne ⟨tolerance, budget⟩ dim (Inequality.ofProgram dim constraints) = .ok none := by
  obtain ⟨coefficients⟩ := objective
  cases coefficients with
  | nil => exact absurd hobjective (Nat.succ_ne_zero dim).symm
  | cons constant linear =>
      obtain rfl : linear.length = dim := Nat.succ.inj hobjective
      simp only [maximize] at h
      split at h
      · cases h
      · obtain ⟨start, hstart, h⟩ := bind_eq_ok.mp h
        cases start with
        | none => exact hstart
        | some start =>
            obtain ⟨final, -, hfinal⟩ := bind_eq_ok.mp h
            cases hfinal

/-- At a point of a program its inequalities leave one unit for each input and constraint. -/
theorem sum_slack_ofProgram (hpoint : point ∈ feasible dim constraints) :
    point.sum + ((Inequality.ofProgram dim constraints).map fun inequality => inequality.slack point).sum =
      dim + (constraints.map fun constraint => |constraint.form.evaluate point|).sum := by
  have hconstraints : (constraints.map Inequality.ofConstraint).map (fun inequality => inequality.slack point) =
      constraints.map fun constraint => |constraint.form.evaluate point| := by
    rw [List.map_map]
    exact List.map_congr_left fun constraint hmem => Inequality.slack_ofConstraint (hpoint.2 constraint hmem)
  rw [Inequality.ofProgram, List.map_append, List.sum_append, hconstraints, Inequality.sum_slack_box hpoint.1.1]
  ring

/-- An inequality that the origin violates is a constraint that the origin violates. -/
theorem exists_not_holds_origin {inequality : Inequality ℚ} (hmem : inequality ∈ Inequality.ofProgram dim constraints)
    (hcut : inequality.cutsOrigin = true) :
    ∃ constraint ∈ constraints, ¬ constraint.Holds (List.replicate dim 0) ∧
      Inequality.ofConstraint constraint = inequality := by
  have hbound : inequality.bound < 0 := of_decide_eq_true hcut
  rcases List.mem_append.mp hmem with hmem | hmem
  · obtain ⟨constraint, hconstraint, rfl⟩ := List.mem_map.mp hmem
    refine ⟨constraint, hconstraint, fun hholds => ?_, rfl⟩
    rw [← Inequality.holds_ofConstraint, Inequality.Holds,
      Inequality.sum_zipWith_eq_sum_range _ _ (List.length_replicate).le,
      Finset.sum_eq_zero fun place _ => by simp] at hholds
    exact absurd hbound (not_lt.mpr hholds)
  · obtain ⟨input, -, rfl⟩ := List.mem_map.mp hmem
    exact absurd hbound (not_lt.mpr zero_le_one)

/-- With any slack, a program is called infeasible only where one constraint that the origin violates is thin: at
every point of the program its form has a value below the tolerance times what the number of inputs and the values of
all other constraints exceed one by. So without slack no program with a point is called infeasible. -/
theorem maximize_infeasible_only (htolerance : 0 ≤ tolerance) (hobjective : objective.coefficients.length = dim + 1)
    (h : maximize ⟨tolerance, budget⟩ objective constraints = .ok .infeasible ∨
      (oracle ⟨tolerance, budget⟩).isFeasible dim constraints = .ok false) :
    ∃ constraint ∈ constraints, ¬ constraint.Holds (List.replicate dim 0) ∧ ∀ point ∈ feasible dim constraints,
      |constraint.form.evaluate point| < tolerance *
        (dim + (constraints.map fun other => |other.form.evaluate point|).sum -
          |constraint.form.evaluate point| - 1) := by
  have hnone : phaseOne ⟨tolerance, budget⟩ dim (Inequality.ofProgram dim constraints) = .ok none := by
    rcases h with h | h
    · exact phaseOne_of_infeasible hobjective h
    · exact phaseOne_of_infeasible (Affine.length_zero dim) (Oracle.isFeasible_eq_false_iff.mp h)
  obtain ⟨row, hcut, hthin⟩ := phaseOne_eq_none htolerance hnone
  obtain ⟨constraint, hconstraint, horigin, heq⟩ := exists_not_holds_origin (List.get_mem _ row) hcut
  refine ⟨constraint, hconstraint, horigin, fun point hpoint => ?_⟩
  obtain ⟨values, hsolves, hnonneg, hproper, rfl⟩ := exists_solution_of_mem_feasible hpoint
  have hless := hthin values hsolves hnonneg hproper
  rwa [sum_values hsolves hproper, sum_slack_ofProgram hpoint, ← heq,
    Inequality.slack_ofConstraint (hpoint.2 constraint hconstraint)] at hless

/-- Three inputs of which two units are asked, in billionths. -/
def thin : List (Constraint ℚ) :=
  [⟨⟨[-2 / 10 ^ 9, 1 / 10 ^ 9, 1 / 10 ^ 9, 1 / 10 ^ 9]⟩, .geq⟩]

theorem mem_feasible_thin : [9 / 10, 9 / 10, 9 / 10] ∈ feasible 3 thin := by
  refine ⟨⟨rfl, by norm_num⟩, fun constraint hmem => ?_⟩
  cases List.mem_singleton.mp hmem
  rw [Constraint.Holds, Sign.admits_geq]
  decide +kernel

/-- With a slack of one billionth no coefficient of `thin` gains, so it is called empty, though a good part of the box
satisfies it with a margin. -/
theorem thin_called_infeasible :
    [9 / 10, 9 / 10, 9 / 10] ∈ feasible 3 thin ∧
      maximize ⟨1 / 10 ^ 9, 50000⟩ ⟨[0, 1, 1, 1]⟩ thin = .ok .infeasible ∧
      (oracle ⟨1 / 10 ^ 9, 50000⟩).isFeasible 3 thin = .ok false :=
  ⟨mem_feasible_thin, by decide +kernel, by decide +kernel⟩

/-- The constraint of `thin` leaves less than two billionths at a point. -/
theorem maximize_infeasible_only_thin :
    ∃ constraint ∈ thin, ¬ constraint.Holds (List.replicate 3 0) ∧
      |constraint.form.evaluate [9 / 10, 9 / 10, 9 / 10]| < 2 / 10 ^ 9 := by
  have hinfeasible : maximize ⟨1 / 10 ^ 9, 50000⟩ ⟨[0, 1, 1, 1]⟩ thin = .ok .infeasible := by decide +kernel
  have hlength : (⟨[0, 1, 1, 1]⟩ : Affine ℚ).coefficients.length = 3 + 1 := rfl
  obtain ⟨constraint, hmem, horigin, hthin⟩ :=
    maximize_infeasible_only (by norm_num) hlength (Or.inl hinfeasible)
  refine ⟨constraint, hmem, horigin, ?_⟩
  have hless := hthin _ mem_feasible_thin
  cases List.mem_singleton.mp hmem
  rw [thin, List.map_singleton, List.sum_singleton, add_sub_cancel_right] at hless
  norm_num only at hless ⊢
  exact hless

end Simplex

end ReluLogic
