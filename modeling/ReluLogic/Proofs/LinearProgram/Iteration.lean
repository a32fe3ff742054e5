import ReluLogic.Proofs.LinearProgram.Canonical

/-!
Rounds of the simplex method without slack. The row that leaves the basis has the smallest ratio of bound
and entry, so a pivot keeps all bounds non-negative; together with the canonical form and the solutions of
the first tableau this is an invariant of every run. Where a run ends no allowed column gains, and where it
is stuck a column gains without limit.
-/

namespace ReluLogic

namespace Tableau

variable {rows columns : Nat} {tableau next : Tableau ℚ rows columns} {costs : Vector ℚ columns}
  {allowed : Nat} {row : Fin rows} {column : Fin columns}

/-- The bound of a row per unit of a column. -/
def ratio (tableau : Tableau ℚ rows columns) (column : Fin columns) (row : Fin rows) : ℚ :=
  tableau.bound row / tableau.entry row column

/-- A row limits a column when its ratio is the smallest among the rows with a positive entry, and its
basic column the smallest among those with this ratio. -/
structure Limits (tableau : Tableau ℚ rows columns) (column : Fin columns) (row : Fin rows) : Prop where
  entry_pos : 0 < tableau.entry row column
  least : ∀ other, 0 < tableau.entry other column →
    tableau.ratio column row < tableau.ratio column other ∨
      tableau.ratio column row = tableau.ratio column other ∧ tableau.basic row ≤ tableau.basic other

theorem Limits.ratio_le (h : tableau.Limits column row) {other : Fin rows}
    (hpos : 0 < tableau.entry other column) :
    tableau.ratio column row ≤ tableau.ratio column other := by
  rcases h.least other hpos with hlt | ⟨heq, -⟩
  · exact hlt.le
  · exact heq.le

/-! ### The entering column -/

theorem entering?_eq_none (h : tableau.entering? costs allowed 0 = none) {column : Fin columns}
    (hallowed : column.val < allowed) : tableau.reducedCost costs column ≤ 0 := by
  have := List.find?_eq_none.mp h column (List.mem_finRange column)
  simpa [hallowed] using this

theorem entering?_eq_some (h : tableau.entering? costs allowed 0 = some column) :
    column.val < allowed ∧ 0 < tableau.reducedCost costs column := by
  have := List.find?_some h
  simpa using this

/-! ### The leaving row -/

/-- What the search for the leaving row holds after it has seen some rows. -/
def BestAmong (tableau : Tableau ℚ rows columns) (column : Fin columns) (seen : List (Fin rows)) :
    Option (Candidate ℚ rows) → Prop
  | none => ∀ row ∈ seen, tableau.entry row column ≤ 0
  | some (row, held) => 0 < tableau.entry row column ∧ held = tableau.ratio column row ∧
      ∀ other ∈ seen, 0 < tableau.entry other column →
        held < tableau.ratio column other ∨
          held = tableau.ratio column other ∧ tableau.basic row ≤ tableau.basic other

theorem improve_of_nonpos (best : Option (Candidate ℚ rows)) (h : tableau.entry row column ≤ 0) :
    tableau.improve 0 column best row = best :=
  if_pos h

theorem improve_of_pos (best : Option (Candidate ℚ rows)) (h : 0 < tableau.entry row column) :
    tableau.improve 0 column best row =
      match best with
      | none => some (row, tableau.ratio column row)
      | some held => some (tableau.preferred 0 held (row, tableau.ratio column row)) := by
  cases best with
  | none => exact if_neg (not_le.mpr h)
  | some held => exact if_neg (not_le.mpr h)

theorem bestAmong_skip {seen : List (Fin rows)} {best : Option (Candidate ℚ rows)}
    (h : tableau.BestAmong column seen best) (hentry : tableau.entry row column ≤ 0) :
    tableau.BestAmong column (seen ++ [row]) best := by
  cases best with
  | none =>
      intro other hother
      rcases List.mem_append.mp hother with hseen | hnew
      · exact h other hseen
      · rwa [List.mem_singleton.mp hnew]
  | some held =>
      obtain ⟨hpos, heq, hleast⟩ := h
      refine ⟨hpos, heq, fun other hother hother_pos => ?_⟩
      rcases List.mem_append.mp hother with hseen | hnew
      · exact hleast other hseen hother_pos
      · rw [List.mem_singleton.mp hnew] at hother_pos
        exact absurd hother_pos (not_lt.mpr hentry)

/-- A row that comes before all that were seen is the best of them and itself. -/
theorem bestAmong_of_before {seen : List (Fin rows)} (hpos : 0 < tableau.entry row column)
    (h : ∀ other ∈ seen, 0 < tableau.entry other column →
      tableau.ratio column row < tableau.ratio column other ∨
        tableau.ratio column row = tableau.ratio column other ∧
          tableau.basic row ≤ tableau.basic other) :
    tableau.BestAmong column (seen ++ [row]) (some (row, tableau.ratio column row)) := by
  refine ⟨hpos, rfl, fun other hother hother_pos => ?_⟩
  rcases List.mem_append.mp hother with hseen | hnew
  · exact h other hseen hother_pos
  · rw [List.mem_singleton.mp hnew]
    exact Or.inr ⟨rfl, le_rfl⟩

theorem bestAmong_preferred {seen : List (Fin rows)} {held : Candidate ℚ rows}
    (h : tableau.BestAmong column seen (some held)) (hpos : 0 < tableau.entry row column) :
    tableau.BestAmong column (seen ++ [row])
      (some (tableau.preferred 0 held (row, tableau.ratio column row))) := by
  obtain ⟨heldRow, heldRatio⟩ := held
  obtain ⟨hheld_pos, rfl, hleast⟩ := h
  simp only [preferred, sub_zero, add_zero, Bool.and_eq_true, decide_eq_true_eq]
  split_ifs with hless htie
  · refine bestAmong_of_before hpos fun other hseen hother_pos => Or.inl ?_
    rcases hleast other hseen hother_pos with hlt | ⟨heq, -⟩
    · exact hless.trans hlt
    · exact hless.trans_eq heq
  · obtain ⟨hle, hbasic⟩ : tableau.ratio column row ≤ tableau.ratio column heldRow ∧
        tableau.basic row < tableau.basic heldRow := htie
    have heq := le_antisymm hle (not_lt.mp hless)
    refine bestAmong_of_before hpos fun other hseen hother_pos => ?_
    rcases hleast other hseen hother_pos with hlt | ⟨hsame, hle_basic⟩
    · exact Or.inl (heq.trans_lt hlt)
    · exact Or.inr ⟨heq.trans hsame, hbasic.le.trans hle_basic⟩
  · refine ⟨hheld_pos, rfl, fun other hother hother_pos => ?_⟩
    rcases List.mem_append.mp hother with hseen | hnew
    · exact hleast other hseen hother_pos
    · rw [List.mem_singleton.mp hnew]
      rcases lt_or_eq_of_le (not_lt.mp hless) with hlt | heq
      · exact Or.inl hlt
      · refine Or.inr ⟨heq, ?_⟩
        by_contra hbasic
        exact htie ⟨heq.ge, not_le.mp hbasic⟩

theorem bestAmong_improve {seen : List (Fin rows)} {best : Option (Candidate ℚ rows)}
    (h : tableau.BestAmong column seen best) (row : Fin rows) :
    tableau.BestAmong column (seen ++ [row]) (tableau.improve 0 column best row) := by
  rcases le_or_gt (tableau.entry row column) 0 with hentry | hpos
  · rw [improve_of_nonpos best hentry]
    exact bestAmong_skip h hentry
  · rw [improve_of_pos best hpos]
    cases best with
    | none =>
        exact bestAmong_of_before hpos fun other hseen hother_pos =>
          absurd hother_pos (not_lt.mpr (h other hseen))
    | some held => exact bestAmong_preferred h hpos

theorem bestAmong_foldl (rest : List (Fin rows)) :
    ∀ {seen : List (Fin rows)} {best : Option (Candidate ℚ rows)},
      tableau.BestAmong column seen best →
        tableau.BestAmong column (seen ++ rest) (rest.foldl (tableau.improve 0 column) best) := by
  induction rest with
  | nil =>
      intro seen best h
      rwa [List.append_nil]
  | cons row rest ih =>
      intro seen best h
      have := ih (bestAmong_improve h row)
      rwa [List.append_assoc] at this

theorem bestAmong_finRange (tableau : Tableau ℚ rows columns) (column : Fin columns) :
    tableau.BestAmong column (List.finRange rows)
      ((List.finRange rows).foldl (tableau.improve 0 column) none) := by
  have hnone : tableau.BestAmong column [] none := fun _ h => absurd h List.not_mem_nil
  exact bestAmong_foldl (List.finRange rows) hnone

theorem leaving?_eq_none (h : tableau.leaving? 0 column = none) (row : Fin rows) :
    tableau.entry row column ≤ 0 := by
  have hbest := bestAmong_finRange tableau column
  rw [Option.map_eq_none_iff.mp h] at hbest
  exact hbest row (List.mem_finRange row)

theorem leaving?_eq_some (h : tableau.leaving? 0 column = some row) : tableau.Limits column row := by
  obtain ⟨⟨held, heldRatio⟩, hfold, rfl⟩ := Option.map_eq_some_iff.mp h
  have hbest := bestAmong_finRange tableau column
  rw [hfold] at hbest
  obtain ⟨hpos, rfl, hleast⟩ := hbest
  exact ⟨hpos, fun other => hleast other (List.mem_finRange other)⟩

/-! ### One round -/

theorem step_eq_optimal (h : tableau.step costs allowed 0 = .optimal) {column : Fin columns}
    (hallowed : column.val < allowed) : tableau.reducedCost costs column ≤ 0 := by
  rw [step] at h
  split at h
  · exact entering?_eq_none ‹_› hallowed
  · split at h <;> cases h

theorem step_eq_unbounded (h : tableau.step costs allowed 0 = .unbounded) :
    ∃ column : Fin columns, column.val < allowed ∧ 0 < tableau.reducedCost costs column ∧
      ∀ row, tableau.entry row column ≤ 0 := by
  rw [step] at h
  split at h
  · cases h
  · rename_i column hentering
    split at h
    · obtain ⟨hallowed, hgain⟩ := entering?_eq_some hentering
      exact ⟨column, hallowed, hgain, leaving?_eq_none ‹_›⟩
    · cases h

theorem step_eq_pivoted (h : tableau.step costs allowed 0 = .pivoted next) :
    ∃ (row : Fin rows) (column : Fin columns), column.val < allowed ∧
      0 < tableau.reducedCost costs column ∧ tableau.Limits column row ∧
      next = tableau.pivot row column := by
  rw [step] at h
  split at h
  · cases h
  · rename_i column hentering
    split at h
    · cases h
    · rename_i row hleaving
      obtain ⟨hallowed, hgain⟩ := entering?_eq_some hentering
      cases h
      exact ⟨row, column, hallowed, hgain, leaving?_eq_some hleaving, rfl⟩

/-- The smallest ratio keeps every bound from falling below zero. -/
theorem Nonnegative.pivot (h : tableau.Nonnegative) (hlimits : tableau.Limits column row) :
    (tableau.pivot row column).Nonnegative := by
  intro other
  rw [pivot_bound]
  have hratio : 0 ≤ tableau.bound row / tableau.entry row column :=
    div_nonneg (h row) hlimits.entry_pos.le
  split_ifs with hrow
  · exact hratio
  · rcases le_or_gt (tableau.entry other column) 0 with hentry | hentry
    · have := mul_nonpos_of_nonpos_of_nonneg hentry hratio
      linarith [h other]
    · have hle : tableau.bound row / tableau.entry row column ≤
          tableau.bound other / tableau.entry other column := hlimits.ratio_le hentry
      rw [le_div_iff₀ hentry] at hle
      linarith

/-! ### Runs -/

/-- A tableau that a run from `start` may reach: it is in canonical form, has no negative bound, and
keeps the solutions of the start. -/
structure Sound (start tableau : Tableau ℚ rows columns) : Prop where
  canonical : tableau.Canonical
  nonnegative : tableau.Nonnegative
  solves_iff : ∀ values, tableau.Solves values ↔ start.Solves values

variable {start final : Tableau ℚ rows columns}

theorem Sound.pivot (h : Sound start tableau) (hpivot : tableau.entry row column ≠ 0)
    (hnonneg : (tableau.pivot row column).Nonnegative) : Sound start (tableau.pivot row column) where
  canonical := h.canonical.pivot hpivot
  nonnegative := hnonneg
  solves_iff values := (pivot_solves_iff hpivot values).trans (h.solves_iff values)

/-- One tableau follows another in a run. -/
def Follows (costs : Vector ℚ columns) (allowed : Nat) (tableau next : Tableau ℚ rows columns) : Prop :=
  tableau.step costs allowed 0 = .pivoted next

theorem Sound.follows (h : Sound start tableau) (hnext : Follows costs allowed tableau next) :
    Sound start next := by
  obtain ⟨row, column, -, -, hlimits, rfl⟩ := step_eq_pivoted hnext
  exact h.pivot hlimits.entry_pos.ne' (h.nonnegative.pivot hlimits)

/-- The invariant holds of every tableau of a run. -/
theorem Sound.run (h : Sound start tableau)
    (hrun : Relation.ReflTransGen (Follows costs allowed) tableau final) : Sound start final := by
  induction hrun with
  | refl => exact h
  | tail _ hnext ih => exact ih.follows hnext

/-- Only allowed columns enter the basis. -/
theorem basic_lt_of_run (h : ∀ row, (tableau.basic row).val < allowed)
    (hrun : Relation.ReflTransGen (Follows costs allowed) tableau final) (row : Fin rows) :
    (final.basic row).val < allowed := by
  induction hrun generalizing row with
  | refl => exact h row
  | tail _ hnext ih =>
      obtain ⟨leaving, column, hallowed, -, -, rfl⟩ := step_eq_pivoted hnext
      rw [pivot_basic]
      split_ifs
      · exact hallowed
      · exact ih row

/-- How a run can end: at an optimum, out of rounds, or at a column that nothing limits. -/
theorem optimize_cases (costs : Vector ℚ columns) (allowed budget fuel : Nat) (tableau : Tableau ℚ rows columns) :
    (∃ final, optimize costs allowed 0 budget fuel tableau = .ok final ∧
      Relation.ReflTransGen (Follows costs allowed) tableau final ∧
      final.step costs allowed 0 = .optimal) ∨
    optimize costs allowed 0 budget fuel tableau = .error (.solver (.pivotsExhausted budget)) ∨
    (optimize costs allowed 0 budget fuel tableau = .error (.solver .unbounded) ∧
      ∃ stuck, Relation.ReflTransGen (Follows costs allowed) tableau stuck ∧
        stuck.step costs allowed 0 = .unbounded) := by
  induction fuel generalizing tableau with
  | zero => exact Or.inr (Or.inl rfl)
  | succ fuel ih =>
      rw [optimize]
      cases hstep : tableau.step costs allowed 0 with
      | optimal => exact Or.inl ⟨tableau, rfl, .refl, hstep⟩
      | unbounded => exact Or.inr (Or.inr ⟨rfl, tableau, .refl, hstep⟩)
      | pivoted next =>
          rcases ih next with ⟨final, hok, hrun, hopt⟩ | hfuel | ⟨herror, stuck, hrun, hstuck⟩
          · exact Or.inl ⟨final, hok, .head hstep hrun, hopt⟩
          · exact Or.inr (Or.inl hfuel)
          · exact Or.inr (Or.inr ⟨herror, stuck, .head hstep hrun, hstuck⟩)

/-- A run that finds an optimum has made its way there by pivots. -/
theorem run_of_optimize {budget fuel : Nat} (h : optimize costs allowed 0 budget fuel tableau = .ok final) :
    Relation.ReflTransGen (Follows costs allowed) tableau final ∧ final.step costs allowed 0 = .optimal := by
  rcases optimize_cases costs allowed budget fuel tableau with ⟨found, hok, hrun, hoptimal⟩ | hfuel | ⟨herror, -⟩
  · cases h.symm.trans hok
    exact ⟨hrun, hoptimal⟩
  · cases h.symm.trans hfuel
  · cases h.symm.trans herror

/-! ### Unlimited columns -/

/-- A column gains, nothing limits it: then solutions without negative values have any objective. They
use the basic columns and the gaining one. -/
theorem Sound.exists_objective_gt (h : Sound start tableau)
    (hgain : 0 < tableau.reducedCost costs column) (hentries : ∀ row, tableau.entry row column ≤ 0)
    (limit : ℚ) :
    ∃ values : Fin columns → ℚ, start.Solves values ∧ (∀ place, 0 ≤ values place) ∧
      (∀ place, place ≠ column → (∀ row, tableau.basic row ≠ place) → values place = 0) ∧
      limit < objective costs values := by
  have hcanon := h.canonical
  have hnot := not_basic_of_reducedCost_ne_zero hgain.ne'
  -- The amount that enters is chosen so that its gain alone passes the limit.
  let amount : ℚ := (|limit - tableau.objectiveValue costs| + 1) / tableau.reducedCost costs column
  have hamount : 0 ≤ amount := div_nonneg (by positivity) hgain.le
  let amounts : Fin rows → ℚ := fun row => tableau.bound row - amount * tableau.entry row column
  let values : Fin columns → ℚ := fun place =>
    tableau.spread amounts place + if place = column then amount else 0
  have hsolves : tableau.Solves values := by
    intro row
    simp only [values, mul_add, Finset.sum_add_distrib, mul_ite, mul_zero]
    rw [hcanon.sum_entry_mul_spread, Finset.sum_ite_eq', if_pos (Finset.mem_univ _)]
    simp only [amounts]
    ring
  have hzero : ∀ place, place ≠ column → (∀ row, tableau.basic row ≠ place) → values place = 0 := by
    intro place hplace hbasic
    simp only [values, spread_of_not_basic hbasic, if_neg hplace, add_zero]
  have hcolumn : values column = amount := by
    simp only [values, spread_of_not_basic hnot, if_pos, zero_add]
  refine ⟨values, (h.solves_iff values).mp hsolves, fun place => ?_, hzero, ?_⟩
  · refine add_nonneg (spread_nonneg (fun row => ?_) place) ?_
    · have := mul_nonpos_of_nonneg_of_nonpos hamount (hentries row)
      simp only [amounts]
      linarith [h.nonnegative row]
    · split_ifs
      · exact hamount
      · exact le_rfl
  · have hsum : ∑ place, tableau.reducedCost costs place * values place =
        tableau.reducedCost costs column * amount := by
      rw [← hcolumn]
      refine Finset.sum_eq_single column (fun place _ hplace => ?_)
        (fun hmem => absurd (Finset.mem_univ _) hmem)
      by_cases hbasic : ∃ row, tableau.basic row = place
      · obtain ⟨row, rfl⟩ := hbasic
        rw [reducedCost_of_basic, zero_mul]
      · rw [hzero place hplace fun row heq => hbasic ⟨row, heq⟩, mul_zero]
    rw [hcanon.objective_eq hsolves, hsum, mul_div_cancel₀ _ hgain.ne']
    linarith [le_abs_self (limit - tableau.objectiveValue costs)]

end Tableau

end ReluLogic
