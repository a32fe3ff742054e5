import ReluLogic.Proofs.LinearProgram.StandardForm

/-!
Correctness of the two-phase method without slack. Phase one ends at a tableau in which artificial columns
are basic only at zero, and each of them finds an ordinary column to be exchanged for, or at a negative
optimum that excludes every feasible point. Phase two starts from ordinary columns alone and keeps to them,
so its optimum is that of the program; the faces of the box leave no column unlimited.
-/

namespace ReluLogic

namespace Tableau

variable {dim : Nat} {inequalities : List (Inequality ℚ)}
  {tableau : Tableau ℚ inequalities.length (width dim inequalities)}

/-! ### Eviction -/

/-- Artificial columns are basic only at zero. -/
def Settled (tableau : Tableau ℚ inequalities.length (width dim inequalities)) : Prop :=
  ∀ row, ordinary dim inequalities ≤ (tableau.basic row).val → tableau.bound row = 0

/-- All basic columns are ordinary. -/
def Cleared (tableau : Tableau ℚ inequalities.length (width dim inequalities)) : Prop :=
  ∀ row, (tableau.basic row).val < ordinary dim inequalities

/-- The slacks of the first tableau leave every combination of artificial values possible, so a row with an
artificial basic column cannot have lost all its ordinary entries. -/
theorem exists_ordinary_entry (h : Sound (build dim inequalities) tableau)
    {row : Fin inequalities.length} (hbasic : ordinary dim inequalities ≤ (tableau.basic row).val) :
    ∃ column : Fin (width dim inequalities), column.val < ordinary dim inequalities ∧
      tableau.entry row column ≠ 0 := by
  by_contra hnone
  push Not at hnone
  have hequation : ∀ artificial : Nat → ℚ,
      ∑ column, tableau.entry row column *
        (if ordinary dim inequalities ≤ column.val then artificial column else 0) =
          tableau.bound row := by
    intro artificial
    rw [← (h.solves_iff _).mpr (solves_fill (fun _ => 0) artificial) row]
    refine Finset.sum_congr rfl fun column _ => ?_
    split_ifs with hcolumn
    · simp only [fill_artificial hcolumn]
    · rw [hnone column (not_le.mp hcolumn), zero_mul, zero_mul]
  have hzero : tableau.bound row = 0 := by
    rw [← hequation fun _ => 0]
    exact Finset.sum_eq_zero fun column _ => by rw [ite_self, mul_zero]
  have hone : tableau.bound row = 1 := by
    rw [← hequation fun column => if column = (tableau.basic row).val then 1 else 0,
      Finset.sum_eq_single (tableau.basic row)]
    · rw [if_pos hbasic, if_pos rfl, mul_one, h.canonical row row, if_pos rfl]
    · intro column _ hne
      rw [if_neg fun heq => hne (Fin.ext heq), ite_self, mul_zero]
    · exact fun hnot => absurd (Finset.mem_univ _) hnot
  exact zero_ne_one (hzero.symm.trans hone)

theorem pivot_bound_of_eq_zero {rows columns : Nat} {tableau : Tableau ℚ rows columns}
    {row : Fin rows} (hzero : tableau.bound row = 0) (column : Fin columns) (other : Fin rows) :
    (tableau.pivot row column).bound other = tableau.bound other := by
  rw [pivot_bound, hzero, zero_div, mul_zero, sub_zero]
  split_ifs with hrow
  · rw [hrow, hzero]
  · rfl

theorem replacement?_eq_none (first : Nat) {row : Fin inequalities.length}
    (h : tableau.replacement? first 0 row = none) {column : Fin (width dim inequalities)}
    (hcolumn : column.val < first) : tableau.entry row column = 0 := by
  have := List.find?_eq_none.mp h column (List.mem_finRange column)
  simp only [hcolumn, decide_true, Bool.true_and, decide_eq_true_eq, Scalar.magnitude_eq_abs,
    not_lt] at this
  exact abs_eq_zero.mp (le_antisymm this (abs_nonneg _))

theorem replacement?_eq_some (first : Nat) {row : Fin inequalities.length}
    {column : Fin (width dim inequalities)} (h : tableau.replacement? first 0 row = some column) :
    column.val < first ∧ tableau.entry row column ≠ 0 := by
  have := List.find?_some h
  simp only [Bool.and_eq_true, decide_eq_true_eq, Scalar.magnitude_eq_abs] at this
  exact ⟨this.1, abs_pos.mp this.2⟩

/-- An artificial column that is basic always finds an ordinary one to be exchanged for. -/
theorem exists_replacement (h : Sound (build dim inequalities) tableau) {row : Fin inequalities.length}
    (hbasic : ordinary dim inequalities ≤ (tableau.basic row).val) :
    ∃ column, tableau.replacement? (ordinary dim inequalities) 0 row = some column := by
  obtain ⟨column, hcolumn, hentry⟩ := exists_ordinary_entry h hbasic
  cases hfound : tableau.replacement? (ordinary dim inequalities) 0 row with
  | none => exact absurd (replacement?_eq_none _ hfound hcolumn) hentry
  | some found => exact ⟨found, rfl⟩

/-- What eviction does to one row: an ordinary basic column stays, an artificial one is exchanged. -/
theorem evictRow_cases (h : Sound (build dim inequalities) tableau) (row : Fin inequalities.length) :
    ((tableau.basic row).val < ordinary dim inequalities ∧
      evictRow (ordinary dim inequalities) 0 tableau row = tableau) ∨
    (ordinary dim inequalities ≤ (tableau.basic row).val ∧
      ∃ column, column.val < ordinary dim inequalities ∧ tableau.entry row column ≠ 0 ∧
        evictRow (ordinary dim inequalities) 0 tableau row = tableau.pivot row column) := by
  by_cases hbasic : (tableau.basic row).val < ordinary dim inequalities
  · exact Or.inl ⟨hbasic, if_pos hbasic⟩
  · obtain ⟨column, hcolumn⟩ := exists_replacement h (not_lt.mp hbasic)
    obtain ⟨hordinary, hentry⟩ := replacement?_eq_some _ hcolumn
    refine Or.inr ⟨not_lt.mp hbasic, column, hordinary, hentry, ?_⟩
    rw [evictRow, if_neg (show ¬(tableau.basis[row]).val < _ from hbasic), hcolumn]

/-- The exchange of artificial columns, with the rows in `rest` still to come. -/
structure Exchanging (rest : List (Fin inequalities.length))
    (tableau : Tableau ℚ inequalities.length (width dim inequalities)) : Prop where
  sound : Sound (build dim inequalities) tableau
  settled : tableau.Settled
  rest_or_lt : ∀ row, row ∈ rest ∨ (tableau.basic row).val < ordinary dim inequalities

/-- Eviction from one row: the row ends with an ordinary basic column, by a pivot that moves no bound. -/
theorem Exchanging.evictRow {row : Fin inequalities.length} {rest : List (Fin inequalities.length)}
    (h : Exchanging (row :: rest) tableau) :
    Exchanging rest (Tableau.evictRow (ordinary dim inequalities) 0 tableau row) := by
  rcases evictRow_cases h.sound row with ⟨hordinary, hsame⟩ | ⟨hartificial, column, hcolumn, hentry, hpivot⟩
  · rw [hsame]
    refine ⟨h.sound, h.settled, fun other => ?_⟩
    rcases h.rest_or_lt other with hmem | hother
    · rcases List.mem_cons.mp hmem with rfl | hrest
      · exact Or.inr hordinary
      · exact Or.inl hrest
    · exact Or.inr hother
  · have hbound := pivot_bound_of_eq_zero (h.settled row hartificial) column
    rw [hpivot]
    refine ⟨h.sound.pivot hentry fun other => ?_, fun other hother => ?_, fun other => ?_⟩
    · rw [hbound]
      exact h.sound.nonnegative other
    · rw [hbound]
      refine h.settled other ?_
      rw [pivot_basic] at hother
      split_ifs at hother
      · exact absurd hcolumn hother.not_gt
      · exact hother
    · rw [pivot_basic]
      split_ifs with hrow
      · exact Or.inr hcolumn
      · exact (h.rest_or_lt other).imp_left fun hmem => (List.mem_cons.mp hmem).resolve_left hrow

theorem Exchanging.foldl {places : List (Fin inequalities.length)} (h : Exchanging places tableau) :
    Exchanging [] (places.foldl (Tableau.evictRow (ordinary dim inequalities) 0) tableau) := by
  induction places generalizing tableau with
  | nil => exact h
  | cons place places ih => exact ih h.evictRow

theorem Exchanging.cleared (h : Exchanging [] tableau) : tableau.Cleared :=
  fun row => (h.rest_or_lt row).resolve_left List.not_mem_nil

theorem Settled.exchanging (hsettled : tableau.Settled) (h : Sound (build dim inequalities) tableau) :
    Exchanging (List.finRange _) tableau :=
  ⟨h, hsettled, fun row => Or.inl (List.mem_finRange row)⟩

/-- After eviction no artificial column is basic. -/
theorem evictArtificials_spec (h : Sound (build dim inequalities) tableau)
    (hsettled : tableau.Settled) :
    Sound (build dim inequalities) (tableau.evictArtificials (ordinary dim inequalities) 0) ∧
      (tableau.evictArtificials (ordinary dim inequalities) 0).Cleared := by
  have hexchanged := (hsettled.exchanging h).foldl
  exact ⟨hexchanged.sound, hexchanged.cleared⟩

/-- Without artificial columns all basic columns are ordinary. -/
theorem cleared_build (h : Inequality.artificials inequalities = 0) : (build dim inequalities).Cleared := by
  intro row
  have hbasic := ((build dim inequalities).basic row).isLt
  simpa only [width, h, Nat.add_zero] using hbasic

/-! ### Phase one -/

open Simplex

theorem get_phaseOneCosts {columns first : Nat} (column : Fin columns) :
    (phaseOneCosts columns first : Vector ℚ columns).get column =
      if column.val < first then 0 else -1 :=
  Vector.getElem_ofFn column.isLt

theorem objective_phaseOne_nonpos {columns first : Nat} {values : Fin columns → ℚ}
    (hnonneg : ∀ column, 0 ≤ values column) :
    objective (phaseOneCosts columns first) values ≤ 0 := by
  refine Finset.sum_nonpos fun column _ => ?_
  rw [get_phaseOneCosts]
  split_ifs
  · rw [zero_mul]
  · rw [neg_one_mul]
    exact neg_nonpos.mpr (hnonneg column)

theorem objective_phaseOne_of_proper {values : Fin (width dim inequalities) → ℚ}
    (hproper : Proper dim inequalities values) :
    objective (phaseOneCosts _ (ordinary dim inequalities)) values = 0 := by
  refine Finset.sum_eq_zero fun column _ => ?_
  rw [get_phaseOneCosts]
  split_ifs with hcolumn
  · rw [zero_mul]
  · rw [hproper column (not_lt.mp hcolumn), mul_zero]

theorem settled_of_objectiveValue_nonneg (h : Sound (build dim inequalities) tableau)
    (hvalue : 0 ≤ tableau.objectiveValue (phaseOneCosts _ (ordinary dim inequalities))) :
    tableau.Settled := by
  intro row hrow
  have hterms : ∀ other ∈ Finset.univ, (phaseOneCosts _ (ordinary dim inequalities) :
      Vector ℚ (width dim inequalities)).get (tableau.basic other) * tableau.bound other ≤ 0 := by
    intro other _
    rw [get_phaseOneCosts]
    split_ifs
    · rw [zero_mul]
    · rw [neg_one_mul]
      exact neg_nonpos.mpr (h.nonnegative other)
  have hsum : ∑ other, (phaseOneCosts _ (ordinary dim inequalities) :
      Vector ℚ (width dim inequalities)).get (tableau.basic other) * tableau.bound other = 0 :=
    le_antisymm (Finset.sum_nonpos hterms) (by rwa [objectiveValue, basicSum_eq] at hvalue)
  have hrow_zero := (Finset.sum_eq_zero_iff_of_nonpos hterms).mp hsum row (Finset.mem_univ _)
  rw [get_phaseOneCosts, if_neg (not_lt.mpr hrow)] at hrow_zero
  linarith

/-- Phase one finds a tableau of ordinary columns, or shows that there is no proper solution, or runs out
of rounds. -/
theorem phaseOne_cases (budget dim : Nat) (inequalities : List (Inequality ℚ)) :
    (∃ start, phaseOne ⟨0, budget⟩ dim inequalities = .ok (some start) ∧
      Sound (build dim inequalities) start ∧ start.Cleared) ∨
    (phaseOne ⟨0, budget⟩ dim inequalities = .ok none ∧
      ∀ values, (build dim inequalities).Solves values → (∀ column, 0 ≤ values column) →
        ¬Proper dim inequalities values) ∨
    phaseOne ⟨0, budget⟩ dim inequalities = .error (.solver (.pivotsExhausted budget)) := by
  by_cases hartificials : Inequality.artificials inequalities = 0
  · refine Or.inl ⟨build dim inequalities, ?_, build_sound, cleared_build hartificials⟩
    rw [phaseOne, if_pos hartificials]
    rfl
  · rcases optimize_cases (phaseOneCosts _ (ordinary dim inequalities)) (width dim inequalities) budget budget
        (build dim inequalities) with
      ⟨final, hok, hrun, hoptimal⟩ | hfuel | ⟨-, stuck, hrun, hstuck⟩
    · have hsound := build_sound.run hrun
      by_cases hvalue : final.objectiveValue (phaseOneCosts _ (ordinary dim inequalities)) < -0
      · refine Or.inr (Or.inl ⟨?_, fun values hsolves hnonneg hproper => ?_⟩)
        · rw [phaseOne, if_neg hartificials]
          simp only [hok, bind, Except.bind]
          rw [if_pos hvalue]
          rfl
        · have hle := hsound.canonical.objective_le (phaseOneCosts _ (ordinary dim inequalities))
            ((hsound.solves_iff values).mpr hsolves) hnonneg
            fun column => Or.inl (step_eq_optimal hoptimal column.isLt)
          rw [objective_phaseOne_of_proper hproper] at hle
          linarith
      · have hsettled := settled_of_objectiveValue_nonneg hsound (by linarith)
        obtain ⟨hevicted, hclear⟩ := evictArtificials_spec hsound hsettled
        refine Or.inl ⟨_, ?_, hevicted, hclear⟩
        rw [phaseOne, if_neg hartificials]
        simp only [hok, bind, Except.bind]
        rw [if_neg hvalue]
        rfl
    · refine Or.inr (Or.inr ?_)
      rw [phaseOne, if_neg hartificials]
      simp only [hfuel, bind, Except.bind]
    · -- Minus the sum of the artificial columns is never positive, so no column is unlimited.
      obtain ⟨column, -, hgain, hentries⟩ := step_eq_unbounded hstuck
      obtain ⟨values, -, hnonneg, -, hlarge⟩ :=
        (build_sound.run hrun).exists_objective_gt hgain hentries 0
      exact absurd (objective_phaseOne_nonpos hnonneg) (not_le.mpr hlarge)

/-! ### Phase two -/

theorem objective_phaseTwo {linear : List ℚ} {inequalities : List (Inequality ℚ)}
    (values : Fin (width linear.length inequalities) → ℚ) :
    objective (phaseTwoCosts _ linear) values =
      (List.zipWith (· * ·) linear (pointOf linear.length inequalities values)).sum := by
  obtain ⟨extended, rfl⟩ := exists_extension values
  have hcosts : ∀ column : Fin (width linear.length inequalities),
      (phaseTwoCosts _ linear : Vector ℚ (width linear.length inequalities)).get column =
        linear.getD column 0 := fun column => Vector.getElem_ofFn column.isLt
  have hbehind : ∑ column ∈ Finset.range (inequalities.length + Inequality.artificials inequalities),
      linear.getD (linear.length + column) 0 * extended (linear.length + column) = 0 :=
    Finset.sum_eq_zero fun column _ => by
      rw [List.getD_eq_default _ _ (Nat.le_add_right _ _), zero_mul]
  have hsum : ∑ column ∈ Finset.range (width linear.length inequalities),
      linear.getD column 0 * extended column =
        ∑ input ∈ Finset.range linear.length, linear.getD input 0 * extended input := by
    rw [width, ordinary, Nat.add_assoc, Finset.sum_range_add, hbehind, add_zero]
  rw [Inequality.sum_zipWith_eq_sum_range _ _ (length_pointOf _).le, objective]
  simp only [hcosts]
  rw [Fin.sum_univ_eq_sum_range fun column => linear.getD column 0 * extended column, hsum]
  refine Finset.sum_congr rfl fun input hinput => ?_
  rw [List.getD_eq_getElem (pointOf linear.length inequalities _) _
    (by rw [length_pointOf]; exact Finset.mem_range.mp hinput), getElem_pointOf]

/-- In the unit box an inner product is at most the sum of the magnitudes of its coefficients. -/
theorem sum_zipWith_le_sum_abs (linear : List ℚ) :
    ∀ {point : List ℚ}, (∀ value ∈ point, 0 ≤ value ∧ value ≤ 1) →
      (List.zipWith (· * ·) linear point).sum ≤ (linear.map (|·|)).sum := by
  induction linear with
  | nil => simp
  | cons coefficient linear ih =>
      intro point hpoint
      cases point with
      | nil =>
          rw [List.zipWith_nil_right, List.sum_nil]
          refine List.sum_nonneg fun value hvalue => ?_
          obtain ⟨original, -, rfl⟩ := List.mem_map.mp hvalue
          exact abs_nonneg original
      | cons value point =>
          obtain ⟨⟨hzero, hone⟩, hrest⟩ := List.forall_mem_cons.mp hpoint
          simp only [List.zipWith_cons_cons, List.map_cons, List.sum_cons]
          refine add_le_add ?_ (ih hrest)
          calc coefficient * value ≤ |coefficient| * value :=
                mul_le_mul_of_nonneg_right (le_abs_self _) hzero
            _ ≤ |coefficient| := mul_le_of_le_one_right (abs_nonneg _) hone

end Tableau

namespace Simplex

open Tableau

variable (budget : Nat) (constant : ℚ) (linear : List ℚ) (constraints : List (Constraint ℚ))

theorem pointOf_mem_feasible {dim : Nat} {constraints : List (Constraint ℚ)}
    {values : Fin (width dim (Inequality.ofProgram dim constraints)) → ℚ}
    (hsolves : (build dim (Inequality.ofProgram dim constraints)).Solves values)
    (hnonneg : ∀ column, 0 ≤ values column)
    (hproper : Proper dim (Inequality.ofProgram dim constraints) values) :
    pointOf dim _ values ∈ feasible dim constraints :=
  (Inequality.holds_ofProgram_iff constraints (length_pointOf values) (pointOf_nonneg hnonneg)).mp
    (holds_pointOf hsolves hnonneg hproper)

theorem exists_solution_of_mem_feasible {dim : Nat} {constraints : List (Constraint ℚ)}
    {point : List ℚ} (h : point ∈ feasible dim constraints) :
    ∃ values, (build dim (Inequality.ofProgram dim constraints)).Solves values ∧
      (∀ column, 0 ≤ values column) ∧ Proper dim (Inequality.ofProgram dim constraints) values ∧
        pointOf dim _ values = point :=
  exists_solution_of_holds h.1.1 (fun value hvalue => (h.1.2 value hvalue).1)
    ((Inequality.holds_ofProgram_iff constraints h.1.1 fun value hvalue => (h.1.2 value hvalue).1).mpr h)

section PhaseTwo

variable {constant linear constraints}
  {tableau : Tableau ℚ _ (width linear.length (Inequality.ofProgram linear.length constraints))}
  (hsound : Sound (build linear.length (Inequality.ofProgram linear.length constraints)) tableau)
  (hclear : tableau.Cleared)

include hsound hclear

/-- The basic point of a tableau in which no ordinary column gains has the greatest value. -/
theorem isGreatest_of_optimal (hoptimal : tableau.step (phaseTwoCosts _ linear)
      (ordinary linear.length (Inequality.ofProgram linear.length constraints)) 0 = .optimal) :
    IsGreatest ((⟨constant :: linear⟩ : Affine ℚ).evaluate '' feasible linear.length constraints)
      (constant + tableau.objectiveValue (phaseTwoCosts _ linear)) := by
  constructor
  · have hproper : Proper linear.length _ tableau.basicSolution := fun column hcolumn =>
      spread_of_not_basic (fun row heq => (hclear row).not_ge (heq ▸ hcolumn)) _
    refine ⟨_, pointOf_mem_feasible ((hsound.solves_iff _).mp hsound.canonical.solves_basicSolution)
      (spread_nonneg hsound.nonnegative) hproper, ?_⟩
    rw [← objective_basicSolution, objective_phaseTwo, Affine.evaluate_eq]
    rfl
  · rintro _ ⟨point, hpoint, rfl⟩
    obtain ⟨values, hsolves, hnonneg, hproper, rfl⟩ := exists_solution_of_mem_feasible hpoint
    have hgains : ∀ column, tableau.reducedCost (phaseTwoCosts _ linear) column ≤ 0 ∨ values column = 0 := by
      intro column
      rcases Nat.lt_or_ge column.val (ordinary linear.length
        (Inequality.ofProgram linear.length constraints)) with hlt | hge
      · exact Or.inl (step_eq_optimal hoptimal hlt)
      · exact Or.inr (hproper column hge)
    have hle := hsound.canonical.objective_le (phaseTwoCosts _ linear)
      ((hsound.solves_iff values).mpr hsolves) hnonneg hgains
    rw [objective_phaseTwo] at hle
    rw [Affine.evaluate_eq]
    exact add_le_add_right hle constant

/-- The faces of the box bound the objective, so no ordinary column is unlimited. -/
theorem step_ne_unbounded : tableau.step (phaseTwoCosts _ linear)
    (ordinary linear.length (Inequality.ofProgram linear.length constraints)) 0 ≠ .unbounded := by
  intro hstuck
  obtain ⟨column, hallowed, hgain, hentries⟩ := step_eq_unbounded hstuck
  obtain ⟨values, hsolves, hnonneg, hzero, hlarge⟩ :=
    hsound.exists_objective_gt hgain hentries (linear.map (|·|)).sum
  have hproper : Proper linear.length _ values := fun place hplace =>
    hzero place (fun heq => hallowed.not_ge (heq ▸ hplace))
      fun row heq => (hclear row).not_ge (heq ▸ hplace)
  rw [objective_phaseTwo] at hlarge
  exact absurd (sum_zipWith_le_sum_abs linear
    (pointOf_mem_feasible hsolves hnonneg hproper).1.2) (not_le.mpr hlarge)

end PhaseTwo

/-- The method on a program: the greatest value of the objective over the feasible points, or none if there
are no such points, unless it runs out of rounds. -/
theorem solve_cases :
    (∃ value, solve ⟨0, budget⟩ constant linear (Inequality.ofProgram linear.length constraints) =
        .ok (.optimal value) ∧
      IsGreatest ((⟨constant :: linear⟩ : Affine ℚ).evaluate '' feasible linear.length constraints)
        value) ∨
    (solve ⟨0, budget⟩ constant linear (Inequality.ofProgram linear.length constraints) =
        .ok .infeasible ∧ feasible linear.length constraints = ∅) ∨
    solve ⟨0, budget⟩ constant linear (Inequality.ofProgram linear.length constraints) =
      .error (.solver (.pivotsExhausted budget)) := by
  rcases phaseOne_cases budget linear.length (Inequality.ofProgram linear.length constraints) with
    ⟨start, hstart, hsound, hclear⟩ | ⟨hnone, hempty⟩ | hfuel
  · rcases optimize_cases (phaseTwoCosts _ linear)
        (ordinary linear.length (Inequality.ofProgram linear.length constraints)) budget budget start with
      ⟨final, hok, hrun, hoptimal⟩ | hfuel | ⟨-, stuck, hrun, hstuck⟩
    · refine Or.inl ⟨constant + final.objectiveValue (phaseTwoCosts _ linear), ?_,
        isGreatest_of_optimal (hsound.run hrun) (basic_lt_of_run hclear hrun) hoptimal⟩
      simp only [solve, hstart, bind, Except.bind, hok]
      rfl
    · refine Or.inr (Or.inr ?_)
      simp only [solve, hstart, bind, Except.bind, hfuel]
    · exact absurd hstuck (step_ne_unbounded (hsound.run hrun) (basic_lt_of_run hclear hrun))
  · refine Or.inr (Or.inl ⟨?_, Set.eq_empty_iff_forall_notMem.mpr fun point hpoint => ?_⟩)
    · simp only [solve, hnone, bind, Except.bind]
      rfl
    · obtain ⟨values, hsolves, hnonneg, hproper, -⟩ := exists_solution_of_mem_feasible hpoint
      exact hempty values hsolves hnonneg hproper
  · refine Or.inr (Or.inr ?_)
    simp only [solve, hfuel, bind, Except.bind]

variable {dim : Nat} {objective : Affine ℚ} {constraints : List (Constraint ℚ)}

theorem maximize_cases (budget : Nat) (hobjective : objective.coefficients.length = dim + 1)
    (hconstraints : Uniform dim constraints) :
    (∃ value, maximize ⟨0, budget⟩ objective constraints = .ok (.optimal value) ∧
      IsGreatest (objective.evaluate '' feasible dim constraints) value) ∨
    (maximize ⟨0, budget⟩ objective constraints = .ok .infeasible ∧ feasible dim constraints = ∅) ∨
    maximize ⟨0, budget⟩ objective constraints = .error (.solver (.pivotsExhausted budget)) := by
  obtain ⟨coefficients⟩ := objective
  cases coefficients with
  | nil => exact absurd hobjective (Nat.succ_ne_zero dim).symm
  | cons constant linear =>
      obtain rfl : linear.length = dim := Nat.succ.inj hobjective
      have hfind : constraints.find? (fun c => c.form.coefficients.length != linear.length + 1) =
          none := by
        rw [List.find?_eq_none]
        intro constraint hmem
        simp only [bne_iff_ne, ne_eq, not_not]
        exact hconstraints constraint hmem
      simp only [maximize, hfind]
      exact solve_cases budget constant linear constraints

/-- Without slack the method is right whenever it answers: an optimum is the greatest value of the
objective over the points of the box that satisfy all constraints, and it reports no such point only where
there is none. It never finds the objective unbounded: the one error left is that the rounds ran out. -/
theorem maximize_finds_greatest (budget : Nat) (hobjective : objective.coefficients.length = dim + 1)
    (hconstraints : Uniform dim constraints) :
    (∀ value, maximize ⟨0, budget⟩ objective constraints = .ok (.optimal value) →
      IsGreatest (objective.evaluate '' feasible dim constraints) value) ∧
    (maximize ⟨0, budget⟩ objective constraints = .ok .infeasible →
      feasible dim constraints = ∅) ∧
    ∀ error, maximize ⟨0, budget⟩ objective constraints = .error error →
      error = .solver (.pivotsExhausted budget) := by
  rcases maximize_cases budget hobjective hconstraints with
    ⟨greatest, hok, hgreatest⟩ | ⟨hok, hempty⟩ | hfuel
  · rw [hok]
    refine ⟨fun value heq => ?_, fun heq => ?_, fun error heq => ?_⟩ <;> cases heq
    exact hgreatest
  · rw [hok]
    refine ⟨fun value heq => ?_, fun _ => hempty, fun error heq => ?_⟩ <;> cases heq
  · rw [hfuel]
    refine ⟨fun value heq => ?_, fun heq => ?_, fun error heq => ?_⟩ <;> cases heq
    rfl

/-- The origin violates the first constraint, so both phases run. -/
theorem maximize_finds_greatest_between :
    IsGreatest ((⟨[1, 2]⟩ : Affine ℚ).evaluate ''
      feasible 1 [⟨⟨[-1 / 2, 1]⟩, .geq⟩, ⟨⟨[-3 / 4, 1]⟩, .leq⟩]) (5 / 2) := by
  have hconstraints : Uniform 1 [(⟨⟨[-1 / 2, 1]⟩, .geq⟩ : Constraint ℚ), ⟨⟨[-3 / 4, 1]⟩, .leq⟩] := by simp [Uniform]
  exact (maximize_finds_greatest 10 rfl hconstraints).1 (5 / 2) (by decide +kernel)

end Simplex

end ReluLogic
