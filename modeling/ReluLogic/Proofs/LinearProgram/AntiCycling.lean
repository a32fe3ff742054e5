import ReluLogic.Proofs.LinearProgram.TwoPhase

/-!
Termination of the simplex method without slack. The first gaining column enters, and among the rows of the smallest
ratio the one with the first basic column leaves; therefore no run comes back to a set of basic columns. On the way
from one set back to itself the basic solution would stay the same. The last of the columns that enter on the way
would enter at one tableau and leave at another, and the gains of the first exclude that choice at the second. There
are only so many sets of basic columns, so with enough rounds the method always answers, and it answers exactly.
-/

namespace ReluLogic

namespace Tableau

open Relation

variable {rows columns : Nat} {start tableau next first last : Tableau ℚ rows columns} {costs : Vector ℚ columns}
  {allowed : Nat} {row : Fin rows} {column place : Fin columns}

/-! ### Rounds -/

def basicColumns (tableau : Tableau ℚ rows columns) : Finset (Fin columns) :=
  Finset.univ.image tableau.basic

/-- The tableaus that the rounds of a run start from, at most as many as `fuel` says. -/
def rounds (costs : Vector ℚ columns) (allowed : Nat) (tolerance : ℚ) :
    Nat → Tableau ℚ rows columns → List (Tableau ℚ rows columns)
  | 0, _ => []
  | fuel + 1, tableau =>
    tableau :: match tableau.step costs allowed tolerance with
      | .pivoted next => rounds costs allowed tolerance fuel next
      | .optimal | .unbounded => []

/-- A run ends as its last round does, and is out of rounds if that one leaves a next tableau. -/
theorem optimize_eq_rounds (costs : Vector ℚ columns) (allowed : Nat) (tolerance : ℚ) (budget fuel : Nat)
    (tableau : Tableau ℚ rows columns) :
    optimize costs allowed tolerance budget fuel tableau =
      match (rounds costs allowed tolerance fuel tableau).getLast? with
      | none => .error (.solver (.pivotsExhausted budget))
      | some last =>
        match last.step costs allowed tolerance with
        | .optimal => .ok last
        | .unbounded => .error (.solver .unbounded)
        | .pivoted _ => .error (.solver (.pivotsExhausted budget)) := by
  induction fuel generalizing tableau with
  | zero => rfl
  | succ fuel ih =>
      rw [optimize, rounds]
      cases hstep : tableau.step costs allowed tolerance with
      | optimal =>
          simp only [List.getLast?_singleton, hstep]
          rfl
      | unbounded =>
          simp only [List.getLast?_singleton, hstep]
          rfl
      | pivoted next =>
          simp only [ih next, List.getLast?_cons]
          cases (rounds costs allowed tolerance fuel next).getLast? with
          | none => simp only [Option.getD_none, hstep]
          | some last => rfl

/-- A run that is out of rounds has used them all and could go on. -/
theorem length_rounds_of_exhausted {tolerance : ℚ} {budget fuel : Nat}
    (h : optimize costs allowed tolerance budget fuel tableau = .error (.solver (.pivotsExhausted budget))) :
    (rounds costs allowed tolerance (fuel + 1) tableau).length = fuel + 1 := by
  induction fuel generalizing tableau with
  | zero =>
      rw [rounds, List.length_cons]
      cases tableau.step costs allowed tolerance <;> rfl
  | succ fuel ih =>
      rw [optimize] at h
      rw [rounds]
      cases hstep : tableau.step costs allowed tolerance with
      | optimal =>
          rw [hstep] at h
          cases h
      | unbounded =>
          rw [hstep] at h
          cases h
      | pivoted next =>
          rw [hstep] at h
          rw [List.length_cons, ih h]

theorem isChain_rounds (fuel : Nat) (tableau : Tableau ℚ rows columns) :
    (rounds costs allowed 0 fuel tableau).IsChain (Follows costs allowed) := by
  induction fuel generalizing tableau with
  | zero => exact .nil
  | succ fuel ih =>
      rw [rounds]
      cases hstep : tableau.step costs allowed 0 with
      | optimal => exact .singleton _
      | unbounded => exact .singleton _
      | pivoted next =>
          cases fuel with
          | zero => exact .singleton _
          | succ fuel => exact .cons_cons hstep (ih next)

/-- The tableaus that rounds start from are those of the run. -/
theorem run_of_mem_rounds {fuel : Nat} (hmem : next ∈ rounds costs allowed 0 fuel tableau) :
    ReflTransGen (Follows costs allowed) tableau next := by
  induction fuel generalizing tableau with
  | zero => exact absurd hmem List.not_mem_nil
  | succ fuel ih =>
      rw [rounds] at hmem
      rcases List.mem_cons.mp hmem with rfl | hmem
      · exact .refl
      · split at hmem
        · exact .head ‹_› (ih hmem)
        all_goals exact absurd hmem List.not_mem_nil

/-! ### Basic columns -/

theorem mem_basicColumns : column ∈ tableau.basicColumns ↔ ∃ row, tableau.basic row = column := by
  simp only [basicColumns, Finset.mem_image, Finset.mem_univ, true_and]

theorem notMem_basicColumns : column ∉ tableau.basicColumns ↔ ∀ row, tableau.basic row ≠ column := by
  rw [mem_basicColumns, not_exists]

theorem Canonical.card_basicColumns (h : tableau.Canonical) : tableau.basicColumns.card = rows := by
  rw [basicColumns, Finset.card_image_of_injective _ h.basic_injective, Finset.card_univ, Fintype.card_fin]

theorem mem_basicColumns_pivot : column ∈ (tableau.pivot row column).basicColumns :=
  mem_basicColumns.mpr ⟨row, by rw [pivot_basic, if_pos rfl]⟩

/-- A pivot brings no column but its own. -/
theorem mem_of_mem_basicColumns_pivot (h : place ∈ (tableau.pivot row column).basicColumns) (hne : place ≠ column) :
    place ∈ tableau.basicColumns := by
  obtain ⟨other, hother⟩ := mem_basicColumns.mp h
  rw [pivot_basic] at hother
  split_ifs at hother
  · exact absurd hother.symm hne
  · exact mem_basicColumns.mpr ⟨other, hother⟩

/-- A pivot takes no column away but that of its row. -/
theorem mem_basicColumns_pivot_of_mem (h : place ∈ tableau.basicColumns) (hne : tableau.basic row ≠ place) :
    place ∈ (tableau.pivot row column).basicColumns := by
  obtain ⟨other, hother⟩ := mem_basicColumns.mp h
  refine mem_basicColumns.mpr ⟨other, ?_⟩
  rw [pivot_basic, if_neg, hother]
  rintro rfl
  exact hne hother

/-- The basic solution is the only one that uses basic columns alone. -/
theorem Canonical.eq_basicSolution (h : tableau.Canonical) {values : Fin columns → ℚ} (hsolves : tableau.Solves values)
    (hzero : ∀ column ∉ tableau.basicColumns, values column = 0) : values = tableau.basicSolution := by
  have hspread : values = tableau.spread fun row => values (tableau.basic row) := by
    funext column
    by_cases hmem : column ∈ tableau.basicColumns
    · obtain ⟨row, rfl⟩ := mem_basicColumns.mp hmem
      rw [spread, Finset.sum_eq_single row (fun other _ hne => if_neg fun heq => hne (h.basic_injective heq))
        (fun hnot => absurd (Finset.mem_univ _) hnot), if_pos rfl]
    · rw [hzero column hmem, spread_of_not_basic (notMem_basicColumns.mp hmem)]
  have hamounts : (fun row => values (tableau.basic row)) = tableau.bound := by
    funext row
    rw [← hsolves row]
    conv_rhs => rw [hspread]
    rw [h.sum_entry_mul_spread]
  rw [hspread, hamounts, basicSolution]

theorem basicSolution_of_notMem (h : column ∉ tableau.basicColumns) : tableau.basicSolution column = 0 :=
  spread_of_not_basic (notMem_basicColumns.mp h) _

theorem Canonical.basicSolution_basic (h : tableau.Canonical) (row : Fin rows) :
    tableau.basicSolution (tableau.basic row) = tableau.bound row := by
  rw [basicSolution, spread, Finset.sum_eq_single row (fun other _ hne => if_neg fun heq => hne (h.basic_injective heq))
    (fun hnot => absurd (Finset.mem_univ _) hnot), if_pos rfl]

/-! ### Pivots of a run -/

/-- What a round chooses: the first column that gains enters for the row that limits it. -/
structure Chooses (costs : Vector ℚ columns) (allowed : Nat) (tableau : Tableau ℚ rows columns) (row : Fin rows)
    (column : Fin columns) : Prop where
  allowed : column.val < allowed
  gains : 0 < tableau.reducedCost costs column
  first : ∀ other < column, tableau.reducedCost costs other ≤ 0
  limits : tableau.Limits column row

theorem entering?_first (h : tableau.entering? costs allowed 0 = some column) {other : Fin columns}
    (hlt : other < column) : tableau.reducedCost costs other ≤ 0 := by
  obtain ⟨hfound, before, behind, hsplit, hbefore⟩ := List.find?_eq_some_iff_append.mp h
  have hallowed : other.val < allowed := lt_trans (Fin.lt_def.mp hlt) (entering?_eq_some h).1
  have hsorted := List.pairwise_lt_finRange columns
  rw [hsplit, List.pairwise_append] at hsorted
  have hmem : other ∈ before := by
    rcases List.mem_append.mp (hsplit ▸ List.mem_finRange other) with hmem | hmem
    · exact hmem
    · rcases List.mem_cons.mp hmem with rfl | hmem
      · exact absurd hlt (lt_irrefl _)
      · exact absurd hlt (List.rel_of_pairwise_cons hsorted.2.1 hmem).asymm
  have hnot := hbefore other hmem
  simpa [hallowed] using hnot

theorem Follows.exists_chooses (h : Follows costs allowed tableau next) :
    ∃ row column, Chooses costs allowed tableau row column ∧ next = tableau.pivot row column := by
  rw [Follows, step] at h
  split at h
  · cases h
  · rename_i column hentering
    split at h
    · cases h
    · rename_i row hleaving
      obtain ⟨hallowed, hgain⟩ := entering?_eq_some hentering
      cases h
      exact ⟨row, column, ⟨hallowed, hgain, fun _ => entering?_first hentering, leaving?_eq_some hleaving⟩, rfl⟩

theorem Chooses.notMem (h : Chooses costs allowed tableau row column) : column ∉ tableau.basicColumns :=
  notMem_basicColumns.mpr (not_basic_of_reducedCost_ne_zero h.gains.ne')

/-- A pivot adds the gain of its column to the objective. -/
theorem Canonical.objectiveValue_pivot (h : tableau.Canonical) (hpivot : tableau.entry row column ≠ 0) :
    (tableau.pivot row column).objectiveValue costs =
      tableau.objectiveValue costs + tableau.reducedCost costs column * tableau.ratio column row := by
  have hpivoted := h.pivot hpivot
  have hsolves := (pivot_solves_iff hpivot _).mp hpivoted.solves_basicSolution
  have hvalue : (tableau.pivot row column).basicSolution column = tableau.ratio column row := by
    have hbasic := hpivoted.basicSolution_basic row
    rwa [pivot_basic, if_pos rfl, pivot_bound, if_pos rfl] at hbasic
  rw [← objective_basicSolution, h.objective_eq hsolves, ← hvalue]
  congr 1
  refine Finset.sum_eq_single column (fun place _ hne => ?_) fun hmem => absurd (Finset.mem_univ _) hmem
  by_cases hmem : place ∈ tableau.basicColumns
  · obtain ⟨other, rfl⟩ := mem_basicColumns.mp hmem
    rw [reducedCost_of_basic, zero_mul]
  · rw [basicSolution_of_notMem fun hpivot => hmem (mem_of_mem_basicColumns_pivot hpivot hne), mul_zero]

theorem Sound.ratio_nonneg (h : Sound start tableau) (hlimits : tableau.Limits column row) :
    0 ≤ tableau.ratio column row :=
  div_nonneg (h.nonnegative row) hlimits.entry_pos.le

/-- A run never loses in the objective. -/
theorem Sound.objectiveValue_le (h : Sound start tableau) (hrun : ReflTransGen (Follows costs allowed) tableau next) :
    tableau.objectiveValue costs ≤ next.objectiveValue costs := by
  induction hrun with
  | refl => exact le_rfl
  | tail hrun hnext ih =>
      obtain ⟨row, column, hchooses, rfl⟩ := hnext.exists_chooses
      have hsound := h.run hrun
      rw [hsound.canonical.objectiveValue_pivot hchooses.limits.entry_pos.ne']
      exact ih.trans (le_add_of_nonneg_right (mul_nonneg hchooses.gains.le (hsound.ratio_nonneg hchooses.limits)))

/-- On the way from one tableau to another a pivot is made. -/
structure Passes (costs : Vector ℚ columns) (allowed : Nat) (first last tableau : Tableau ℚ rows columns)
    (row : Fin rows) (column : Fin columns) : Prop where
  before : ReflTransGen (Follows costs allowed) first tableau
  chooses : Chooses costs allowed tableau row column
  follows : Follows costs allowed tableau (tableau.pivot row column)
  after : ReflTransGen (Follows costs allowed) (tableau.pivot row column) last

theorem Passes.of_follows (h : Follows costs allowed tableau next) :
    ∃ row column, Passes costs allowed tableau next tableau row column ∧ next = tableau.pivot row column := by
  obtain ⟨row, column, hchooses, rfl⟩ := h.exists_chooses
  exact ⟨row, column, ⟨.refl, hchooses, h, .refl⟩, rfl⟩

theorem Passes.extend (h : Passes costs allowed first last tableau row column)
    (hbefore : ReflTransGen (Follows costs allowed) start first)
    (hafter : ReflTransGen (Follows costs allowed) last next) :
    Passes costs allowed start next tableau row column :=
  ⟨hbefore.trans h.before, h.chooses, h.follows, h.after.trans hafter⟩

/-- What holds at the start of a run and not at its end ends with a pivot on the way. -/
theorem exists_passes_of_change (Held : Tableau ℚ rows columns → Prop)
    (hrun : ReflTransGen (Follows costs allowed) first last) (hfirst : Held first) (hlast : ¬ Held last) :
    ∃ tableau row column, Passes costs allowed first last tableau row column ∧ Held tableau ∧
      ¬ Held (tableau.pivot row column) := by
  induction hrun with
  | refl => exact absurd hfirst hlast
  | @tail middle last hrun hnext ih =>
      by_cases hmiddle : Held middle
      · obtain ⟨row, column, hpasses, rfl⟩ := Passes.of_follows hnext
        exact ⟨middle, row, column, hpasses.extend hrun .refl, hmiddle, hlast⟩
      · obtain ⟨tableau, row, column, hpasses, hchange⟩ := ih hmiddle
        exact ⟨tableau, row, column, hpasses.extend .refl (.single hnext), hchange⟩

/-- A column that is basic at the end of a run and was not at its start enters on the way. -/
theorem exists_passes_of_enters (hrun : ReflTransGen (Follows costs allowed) first last)
    (hnot : place ∉ first.basicColumns) (hmem : place ∈ last.basicColumns) :
    ∃ tableau row, Passes costs allowed first last tableau row place := by
  obtain ⟨tableau, row, column, hpasses, hout, hin⟩ :=
    exists_passes_of_change (place ∉ ·.basicColumns) hrun hnot (not_not_intro hmem)
  obtain rfl : place = column := by
    by_contra hne
    exact hout (mem_of_mem_basicColumns_pivot (not_not.mp hin) hne)
  exact ⟨tableau, row, hpasses⟩

/-- A column that is basic at the start of a run and is not at its end leaves on the way. -/
theorem exists_passes_of_leaves (hrun : ReflTransGen (Follows costs allowed) first last)
    (hmem : place ∈ first.basicColumns) (hnot : place ∉ last.basicColumns) :
    ∃ tableau row column, Passes costs allowed first last tableau row column ∧ tableau.basic row = place := by
  obtain ⟨tableau, row, column, hpasses, hin, hout⟩ :=
    exists_passes_of_change (place ∈ ·.basicColumns) hrun hmem hnot
  refine ⟨tableau, row, column, hpasses, ?_⟩
  by_contra hne
  exact hout (mem_basicColumns_pivot_of_mem hin hne)

/-! ### Cycles -/

/-- A run that comes back to the set of basic columns that it starts from. -/
structure Cycle (costs : Vector ℚ columns) (allowed : Nat) (start first last : Tableau ℚ rows columns) : Prop where
  sound : Sound start first
  run : ReflTransGen (Follows costs allowed) first last
  basicColumns_eq : last.basicColumns = first.basicColumns

namespace Cycle

variable {other : Tableau ℚ rows columns} (h : Cycle costs allowed start first last)

include h

theorem basicSolution_last : last.basicSolution = first.basicSolution := by
  have hlast := h.sound.run h.run
  refine h.sound.canonical.eq_basicSolution ?_ fun column hnot => ?_
  · exact (h.sound.solves_iff _).mpr ((hlast.solves_iff _).mp hlast.canonical.solves_basicSolution)
  · exact basicSolution_of_notMem (h.basicColumns_eq ▸ hnot)

theorem objectiveValue_last : last.objectiveValue costs = first.objectiveValue costs := by
  rw [← objective_basicSolution, h.basicSolution_last, objective_basicSolution]

/-- The objective cannot come back, so no pivot of a cycle moves it, nor a bound. -/
theorem bound_eq_zero (hpasses : Passes costs allowed first last tableau row column) : tableau.bound row = 0 := by
  have hsound := h.sound.run hpasses.before
  have hbefore := h.sound.objectiveValue_le hpasses.before
  have hafter := (hsound.follows hpasses.follows).objectiveValue_le hpasses.after
  rw [h.objectiveValue_last, hsound.canonical.objectiveValue_pivot hpasses.chooses.limits.entry_pos.ne']
    at hafter
  have hratio : tableau.ratio column row ≤ 0 := by
    by_contra hpos
    have hgain := mul_pos hpasses.chooses.gains (not_le.mp hpos)
    linarith
  exact (div_eq_zero_iff.mp (le_antisymm hratio (hsound.ratio_nonneg hpasses.chooses.limits))).resolve_right
    hpasses.chooses.limits.entry_pos.ne'

/-- The basic solution is the same all along a cycle. -/
theorem basicSolution_eq (hbefore : ReflTransGen (Follows costs allowed) first tableau)
    (hafter : ReflTransGen (Follows costs allowed) tableau last) : tableau.basicSolution = first.basicSolution := by
  induction hbefore with
  | refl => rfl
  | tail hrun hnext ih =>
      rename_i middle tableau
      obtain ⟨row, column, hpasses, rfl⟩ := Passes.of_follows hnext
      rw [← ih (.head hnext hafter)]
      have hzero := h.bound_eq_zero (hpasses.extend hrun hafter)
      funext place
      simp only [basicSolution, spread]
      refine Finset.sum_congr rfl fun other _ => ?_
      rw [pivot_bound_of_eq_zero hzero, pivot_basic]
      by_cases hrow : other = row
      · rw [hrow, hzero, ite_self, ite_self]
      · rw [if_neg hrow]

/-- A column that is basic at one tableau of a cycle and not at another enters on the cycle, and leaves on it. -/
theorem exists_passes (hbefore : ReflTransGen (Follows costs allowed) first tableau)
    (hafter : ReflTransGen (Follows costs allowed) tableau last) (hmem : place ∈ tableau.basicColumns)
    (hbefore' : ReflTransGen (Follows costs allowed) first other)
    (hafter' : ReflTransGen (Follows costs allowed) other last) (hnot : place ∉ other.basicColumns) :
    (∃ tableau row, Passes costs allowed first last tableau row place) ∧
      ∃ tableau row column, Passes costs allowed first last tableau row column ∧ tableau.basic row = place := by
  by_cases hfirst : place ∈ first.basicColumns
  · obtain ⟨entered, row, henters⟩ := exists_passes_of_enters hafter' hnot (h.basicColumns_eq ▸ hfirst)
    obtain ⟨left, row', column, hleaves, hbasic⟩ := exists_passes_of_leaves hbefore' hfirst hnot
    exact ⟨⟨entered, row, henters.extend hbefore' .refl⟩, left, row', column, hleaves.extend .refl hafter', hbasic⟩
  · obtain ⟨entered, row, henters⟩ := exists_passes_of_enters hbefore hfirst hmem
    obtain ⟨left, row', column, hleaves, hbasic⟩ :=
      exists_passes_of_leaves hafter hmem (h.basicColumns_eq ▸ hfirst)
    exact ⟨⟨entered, row, henters.extend .refl hafter⟩, left, row', column, hleaves.extend hbefore .refl, hbasic⟩

end Cycle

/-! ### The last column of a cycle -/

/-- The basic solution with one unit of a column more. -/
def raised (tableau : Tableau ℚ rows columns) (column place : Fin columns) : ℚ :=
  tableau.spread (fun row => tableau.bound row - tableau.entry row column) place + if place = column then 1 else 0

theorem raised_of_notMem (hmem : place ∉ tableau.basicColumns) (hne : place ≠ column) :
    tableau.raised column place = 0 := by
  rw [raised, spread_of_not_basic (notMem_basicColumns.mp hmem), if_neg hne, add_zero]

theorem raised_self (hnot : column ∉ tableau.basicColumns) : tableau.raised column column = 1 := by
  rw [raised, spread_of_not_basic (notMem_basicColumns.mp hnot), if_pos rfl, zero_add]

namespace Canonical

variable (h : tableau.Canonical)

include h

theorem raised_basic (hnot : column ∉ tableau.basicColumns) (row : Fin rows) :
    tableau.raised column (tableau.basic row) = tableau.bound row - tableau.entry row column := by
  rw [raised, spread, Finset.sum_eq_single row
    (fun other _ hne => if_neg fun heq => hne (h.basic_injective heq))
    (fun hmem => absurd (Finset.mem_univ _) hmem), if_pos rfl, if_neg (notMem_basicColumns.mp hnot row), add_zero]

theorem solves_raised (column : Fin columns) : tableau.Solves (tableau.raised column) := by
  intro row
  simp only [raised, mul_add, Finset.sum_add_distrib, mul_ite, mul_one, mul_zero]
  rw [h.sum_entry_mul_spread, Finset.sum_ite_eq', if_pos (Finset.mem_univ _), sub_add_cancel]

/-- A unit more of a column adds its gain. -/
theorem objective_raised (costs : Vector ℚ columns) (hnot : column ∉ tableau.basicColumns) :
    objective costs (tableau.raised column) = tableau.objectiveValue costs + tableau.reducedCost costs column := by
  rw [h.objective_eq (h.solves_raised column)]
  congr 1
  rw [Finset.sum_eq_single column (fun place _ hne => ?_) fun hmem => absurd (Finset.mem_univ _) hmem,
    raised_self hnot, mul_one]
  by_cases hmem : place ∈ tableau.basicColumns
  · obtain ⟨row, rfl⟩ := mem_basicColumns.mp hmem
    rw [reducedCost_of_basic, zero_mul]
  · rw [raised_of_notMem hmem hne, mul_zero]

end Canonical

/-- Of two tableaus with one basic solution, what gains at the first is paid for by the gains of the second. -/
theorem Sound.exists_gaining (h : Sound start tableau) (hnext : Sound start next)
    (hsolution : tableau.basicSolution = next.basicSolution) (hgain : 0 < tableau.reducedCost costs column) :
    ∃ place ∉ next.basicColumns, 0 < next.reducedCost costs place * tableau.raised column place := by
  have hnot : column ∉ tableau.basicColumns :=
    notMem_basicColumns.mpr (not_basic_of_reducedCost_ne_zero hgain.ne')
  have hobjective : objective costs (tableau.raised column) = _ := hnext.canonical.objective_eq
    ((hnext.solves_iff _).mpr ((h.solves_iff _).mp (h.canonical.solves_raised column)))
  rw [h.canonical.objective_raised costs hnot, ← objective_basicSolution, hsolution, objective_basicSolution,
    add_right_inj] at hobjective
  obtain ⟨place, hplace⟩ : ∃ place, 0 < next.reducedCost costs place * tableau.raised column place := by
    by_contra hnone
    push Not at hnone
    exact absurd (Finset.sum_nonpos fun place _ => hnone place) (not_le.mpr (hobjective ▸ hgain))
  refine ⟨place, fun hmem => ?_, hplace⟩
  obtain ⟨row, rfl⟩ := mem_basicColumns.mp hmem
  rw [reducedCost_of_basic, zero_mul] at hplace
  exact lt_irrefl _ hplace

namespace Cycle

variable (h : Cycle costs allowed start first last)

include h

/-- The last column that enters on a cycle enters at one tableau and leaves at another. -/
theorem exists_last (hsome : ∃ tableau row column, Passes costs allowed first last tableau row column) :
    ∃ entered row left row' column greatest, Passes costs allowed first last entered row greatest ∧
      Passes costs allowed first last left row' column ∧ left.basic row' = greatest ∧
      ∀ tableau row column, Passes costs allowed first last tableau row column → column ≤ greatest := by
  classical
  obtain ⟨tableau, row, column, hpasses⟩ := hsome
  obtain ⟨greatest, hgreatest, hmax⟩ := (Finset.univ.filter fun column =>
    ∃ tableau row, Passes costs allowed first last tableau row column).exists_max_image id
      ⟨column, Finset.mem_filter.mpr ⟨Finset.mem_univ _, tableau, row, hpasses⟩⟩
  obtain ⟨entered, row, henters⟩ := (Finset.mem_filter.mp hgreatest).2
  obtain ⟨-, left, row', column, hleaves, hbasic⟩ := h.exists_passes (henters.before.tail henters.follows)
    henters.after mem_basicColumns_pivot henters.before (.head henters.follows henters.after) henters.chooses.notMem
  exact ⟨entered, row, left, row', column, greatest, henters, hleaves, hbasic, fun tableau row column hpasses =>
    hmax column (Finset.mem_filter.mpr ⟨Finset.mem_univ _, tableau, row, hpasses⟩)⟩

/-- No round leads from a set of basic columns on a way back to it. -/
theorem not_passes : ¬ ∃ tableau row column, Passes costs allowed first last tableau row column := by
  intro hsome
  obtain ⟨entered, row, left, row', column, greatest, henters, hleaves, hbasic, hle⟩ := h.exists_last hsome
  have hentered := h.sound.run henters.before
  have hleft := h.sound.run hleaves.before
  have honward := ReflTransGen.head henters.follows henters.after
  have honward' := ReflTransGen.head hleaves.follows hleaves.after
  have hsolution : left.basicSolution = entered.basicSolution :=
    (h.basicSolution_eq hleaves.before honward').trans (h.basicSolution_eq henters.before honward).symm
  -- A unit of the column that enters where the last one leaves gains there, so some place gains elsewhere.
  obtain ⟨place, hnot, hplace⟩ := hleft.exists_gaining hentered hsolution hleaves.chooses.gains
  by_cases hself : place = column
  · have hlt : column < greatest := by
      refine lt_of_le_of_ne (hle left row' column hleaves) ?_
      rintro rfl
      exact hleaves.chooses.notMem (mem_basicColumns.mpr ⟨row', hbasic⟩)
    rw [hself, raised_self hleaves.chooses.notMem, mul_one] at hplace
    exact absurd (henters.chooses.first column hlt) (not_le.mpr hplace)
  have hmem : place ∈ left.basicColumns := by
    by_contra hnone
    rw [raised_of_notMem hnone hself, mul_zero] at hplace
    exact lt_irrefl _ hplace
  obtain ⟨⟨passed, _, hpassed⟩, -⟩ := h.exists_passes hleaves.before honward' hmem henters.before honward hnot
  obtain ⟨other, rfl⟩ := mem_basicColumns.mp hmem
  have hzero : left.bound other = 0 := by
    rw [← hleft.canonical.basicSolution_basic, hsolution, basicSolution_of_notMem hnot]
  rw [hleft.canonical.raised_basic hleaves.chooses.notMem, hzero, zero_sub] at hplace
  rcases (hle passed _ _ hpassed).lt_or_eq with hlt | heq
  · -- An earlier column with the ratio zero would have left instead.
    have hentry : 0 < left.entry other column := by
      by_contra hnonpos
      have hloss := mul_nonpos_of_nonpos_of_nonneg (henters.chooses.first _ hlt)
        (neg_nonneg.mpr (not_lt.mp hnonpos))
      exact absurd hplace (not_lt.mpr hloss)
    have hratio : left.ratio column row' = 0 := by rw [ratio, h.bound_eq_zero hleaves, zero_div]
    have hratio' : left.ratio column other = 0 := by rw [ratio, hzero, zero_div]
    rcases hleaves.chooses.limits.least other hentry with hless | ⟨-, hbefore⟩
    · rw [hratio, hratio'] at hless
      exact lt_irrefl _ hless
    · exact absurd hlt (not_lt.mpr (hbasic ▸ hbefore))
  · -- The last column itself gains where it enters, and its row has a positive entry where it leaves.
    obtain rfl : other = row' := hleft.canonical.basic_injective (heq.trans hbasic.symm)
    have hgain := mul_pos (hbasic ▸ henters.chooses.gains) hleaves.chooses.limits.entry_pos
    linarith

end Cycle

/-- No run comes back to a set of basic columns. -/
theorem Sound.basicColumns_ne (h : Sound start first) (hrun : TransGen (Follows costs allowed) first last) :
    first.basicColumns ≠ last.basicColumns := by
  intro hsame
  obtain ⟨next, hnext, hrest⟩ := TransGen.head'_iff.mp hrun
  obtain ⟨row, column, hpasses, rfl⟩ := Passes.of_follows hnext
  exact Cycle.not_passes ⟨h, .head hnext hrest, hsame.symm⟩ ⟨first, row, column, hpasses.extend .refl hrest⟩

/-- No two rounds of a run start from the same set of basic columns. -/
theorem Sound.nodup_rounds (h : Sound start tableau) (costs : Vector ℚ columns) (allowed fuel : Nat) :
    ((rounds costs allowed 0 fuel tableau).map basicColumns).Nodup := by
  have hruns : (rounds costs allowed 0 fuel tableau).Pairwise (TransGen (Follows costs allowed)) :=
    ((isChain_rounds fuel tableau).imp fun _ _ => TransGen.single).pairwise
  refine List.pairwise_map.mpr (hruns.imp_of_mem fun hmem _ hrun => ?_)
  exact (h.run (run_of_mem_rounds hmem)).basicColumns_ne hrun

/-- There are at most as many rounds as sets of basic columns. -/
theorem Sound.length_rounds_le (h : Sound start tableau) (costs : Vector ℚ columns) (allowed fuel : Nat) :
    (rounds costs allowed 0 fuel tableau).length ≤ columns.choose rows := by
  have hsets : ((rounds costs allowed 0 fuel tableau).map basicColumns).toFinset ⊆
      (Finset.univ : Finset (Fin columns)).powersetCard rows := by
    intro set hset
    obtain ⟨reached, hreached, rfl⟩ := List.mem_map.mp (List.mem_toFinset.mp hset)
    exact Finset.mem_powersetCard.mpr
      ⟨Finset.subset_univ _, (h.run (run_of_mem_rounds hreached)).canonical.card_basicColumns⟩
  have hcard := Finset.card_le_card hsets
  rwa [List.toFinset_card_of_nodup (h.nodup_rounds costs allowed fuel), List.length_map, Finset.card_powersetCard,
    Finset.card_univ, Fintype.card_fin] at hcard

/-- With as many rounds as there are sets of basic columns no run is out of rounds. -/
theorem Sound.optimize_ne_exhausted (h : Sound start tableau) (costs : Vector ℚ columns) (allowed : Nat)
    {budget : Nat} (hbudget : columns.choose rows ≤ budget) :
    optimize costs allowed 0 budget budget tableau ≠ .error (.solver (.pivotsExhausted budget)) := by
  intro hexhausted
  have hlength := h.length_rounds_le costs allowed (budget + 1)
  rw [length_rounds_of_exhausted hexhausted] at hlength
  omega

end Tableau

namespace Simplex

open Tableau

variable {dim budget : Nat} {objective : Affine ℚ} {constraints : List (Constraint ℚ)}

/-- Phase two starts from a tableau with the solutions of the first one. -/
theorem sound_of_phaseOne {inequalities : List (Inequality ℚ)}
    {start : Tableau ℚ inequalities.length (width dim inequalities)}
    (h : phaseOne ⟨0, budget⟩ dim inequalities = .ok (some start)) : Sound (build dim inequalities) start := by
  rcases phaseOne_cases budget dim inequalities with ⟨found, hfound, hsound, -⟩ | ⟨hnone, -⟩ | hfuel
  · cases h.symm.trans hfound
    exact hsound
  · cases h.symm.trans hnone
  · cases h.symm.trans hfuel

theorem phaseOne_ne_exhausted {inequalities : List (Inequality ℚ)}
    (hbudget : (width dim inequalities).choose inequalities.length ≤ budget) :
    phaseOne ⟨0, budget⟩ dim inequalities ≠ .error (.solver (.pivotsExhausted budget)) := by
  intro hexhausted
  rw [phaseOne] at hexhausted
  split_ifs at hexhausted
  · cases hexhausted
  · rcases bind_eq_error.mp hexhausted with hoptimize | ⟨final, -, hfinal⟩
    · exact build_sound.optimize_ne_exhausted _ _ hbudget hoptimize
    · split_ifs at hfinal <;> cases hfinal

theorem solve_ne_exhausted (constant : ℚ) {linear : List ℚ} {inequalities : List (Inequality ℚ)}
    (hbudget : (width linear.length inequalities).choose inequalities.length ≤ budget) :
    solve ⟨0, budget⟩ constant linear inequalities ≠ .error (.solver (.pivotsExhausted budget)) := by
  intro hexhausted
  rcases bind_eq_error.mp hexhausted with hphase | ⟨start, hstart, hexhausted⟩
  · exact phaseOne_ne_exhausted hbudget hphase
  · cases start with
    | none => cases hexhausted
    | some start =>
        rcases bind_eq_error.mp hexhausted with hoptimize | ⟨final, -, hfinal⟩
        · exact (sound_of_phaseOne hstart).optimize_ne_exhausted _ _ hbudget hoptimize
        · cases hfinal

/-- With as many rounds as there are sets of as many columns as rows every program is answered. -/
theorem exists_maximize_eq (hobjective : objective.coefficients.length = dim + 1)
    (hconstraints : Uniform dim constraints)
    (hbudget : (width dim (Inequality.ofProgram dim constraints)).choose
      (Inequality.ofProgram dim constraints).length ≤ budget) :
    ∃ outcome, maximize ⟨0, budget⟩ objective constraints = .ok outcome := by
  rcases maximize_cases budget hobjective hconstraints with ⟨value, hok, -⟩ | ⟨hok, -⟩ | hexhausted
  · exact ⟨_, hok⟩
  · exact ⟨_, hok⟩
  · obtain ⟨coefficients⟩ := objective
    cases coefficients with
    | nil => exact absurd hobjective (Nat.succ_ne_zero dim).symm
    | cons constant linear =>
        obtain rfl : linear.length = dim := Nat.succ.inj hobjective
        simp only [maximize] at hexhausted
        split at hexhausted
        · cases hexhausted
        · exact absurd hexhausted (solve_ne_exhausted constant hbudget)

/-- The method without slack and with more rounds than a program over `dim` inputs can need. -/
def exhaustive (dim : Nat) : Oracle ℚ where
  maximize objective constraints :=
    maximize ⟨0, 2 ^ width dim (Inequality.ofProgram dim constraints)⟩ objective constraints
  tolerance := 0

/-- Without slack and with enough rounds the method is exact. -/
theorem exhaustive_exact (dim : Nat) : (exhaustive dim).Exact dim := by
  have hcases : ∀ {objective : Affine ℚ} {constraints : List (Constraint ℚ)},
      objective.coefficients.length = dim + 1 → Uniform dim constraints →
        (∃ value, (exhaustive dim).maximize objective constraints = .ok (.optimal value) ∧
          IsGreatest (objective.evaluate '' feasible dim constraints) value) ∨
        ((exhaustive dim).maximize objective constraints = .ok .infeasible ∧ feasible dim constraints = ∅) := by
    intro objective constraints hobjective hconstraints
    rcases maximize_cases (2 ^ width dim (Inequality.ofProgram dim constraints)) hobjective hconstraints with
      hoptimal | hinfeasible | hexhausted
    · exact Or.inl hoptimal
    · exact Or.inr hinfeasible
    · obtain ⟨outcome, hok⟩ := exists_maximize_eq hobjective hconstraints (Nat.choose_le_two_pow _ _)
      cases hok.symm.trans hexhausted
  refine ⟨rfl, fun objective constraints hobjective hconstraints hpoint => ?_,
    fun objective constraints hobjective hconstraints hempty => ?_⟩
  · rcases hcases hobjective hconstraints with hoptimal | ⟨-, hempty⟩
    · exact hoptimal
    · exact absurd hempty hpoint.ne_empty
  · rcases hcases hobjective hconstraints with ⟨value, -, hgreatest⟩ | ⟨hok, -⟩
    · rw [hempty, Set.image_empty] at hgreatest
      exact absurd hgreatest.1 (Set.notMem_empty value)
    · exact hok

/-- Without slack the method terminates. In neither phase do two rounds start from the same set of basic columns, and
with as many rounds as there are sets of as many columns as rows, it answers every program. -/
theorem maximize_terminates (budget : Nat) (hobjective : objective.coefficients.length = dim + 1)
    (hconstraints : Uniform dim constraints) :
    let inequalities := Inequality.ofProgram dim constraints
    ((rounds (phaseOneCosts _ (ordinary dim inequalities)) (width dim inequalities) 0 budget
      (build dim inequalities)).map basicColumns).Nodup ∧
    (∀ start, phaseOne ⟨0, budget⟩ dim inequalities = .ok (some start) →
      ((rounds (phaseTwoCosts _ objective.linear) (ordinary dim inequalities) 0 budget start).map
        basicColumns).Nodup) ∧
    ((width dim inequalities).choose inequalities.length ≤ budget →
      ∃ outcome, maximize ⟨0, budget⟩ objective constraints = .ok outcome) :=
  ⟨build_sound.nodup_rounds _ _ _, fun _ hstart => (sound_of_phaseOne hstart).nodup_rounds _ _ _,
    exists_maximize_eq hobjective hconstraints⟩

/-- Two upper bounds that meet at the optimum, behind a lower one that the origin violates. -/
theorem maximize_terminates_between :
    ∃ outcome, maximize ⟨0, 15⟩ (⟨[1, 2]⟩ : Affine ℚ)
      [⟨⟨[-1 / 2, 1]⟩, .geq⟩, ⟨⟨[-3 / 4, 1]⟩, .leq⟩, ⟨⟨[-3 / 2, 2]⟩, .leq⟩] = .ok outcome := by
  have hconstraints : Uniform 1 [(⟨⟨[-1 / 2, 1]⟩, .geq⟩ : Constraint ℚ), ⟨⟨[-3 / 4, 1]⟩, .leq⟩,
      ⟨⟨[-3 / 2, 2]⟩, .leq⟩] := by
    simp [Uniform]
  exact (maximize_terminates 15 rfl hconstraints).2.2 (by decide +kernel)

end Simplex

end ReluLogic
