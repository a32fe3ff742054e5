import ReluLogic.Proofs.LinearProgram.Feasible
import ReluLogic.Proofs.LinearProgram.Iteration

/-!
The first tableau of a linear program. Its structural and artificial columns can be given any values, and
the slack columns then follow; a solution without negative values and without artificial ones is a point of
the box that satisfies all constraints together with its slacks, and every such point has one.
-/

namespace ReluLogic

namespace Inequality

/-- The inner product with a point stays within the bound. -/
def Holds (inequality : Inequality ℚ) (point : List ℚ) : Prop :=
  (List.zipWith (· * ·) inequality.coefficients point).sum ≤ inequality.bound

/-- What the bound leaves of the inner product with a point. -/
def slack (inequality : Inequality ℚ) (point : List ℚ) : ℚ :=
  inequality.bound - (List.zipWith (· * ·) inequality.coefficients point).sum

theorem holds_iff_slack_nonneg {inequality : Inequality ℚ} {point : List ℚ} :
    inequality.Holds point ↔ 0 ≤ inequality.slack point :=
  sub_nonneg.symm

theorem holds_ofConstraint (constraint : Constraint ℚ) (point : List ℚ) :
    (ofConstraint constraint).Holds point ↔ constraint.Holds point := by
  obtain ⟨form, sign⟩ := constraint
  cases sign with
  | geq =>
      rw [Constraint.Holds, Sign.admits_geq, Affine.evaluate_eq, Holds]
      simp only [ofConstraint, Affine.sum_zipWith_neg]
      rw [neg_le_iff_add_nonneg]
  | leq =>
      rw [Constraint.Holds, Sign.admits_leq, Affine.evaluate_eq, Holds]
      simp only [ofConstraint]
      rw [le_neg_iff_add_nonpos_left]

/-- An inner product is a sum over places, which may go on behind the end of the point. -/
theorem sum_zipWith_eq_sum_range (coefficients : List ℚ) :
    ∀ (point : List ℚ) {count : Nat}, point.length ≤ count →
      (List.zipWith (· * ·) coefficients point).sum =
        ∑ place ∈ Finset.range count, coefficients.getD place 0 * point.getD place 0 := by
  induction coefficients with
  | nil => simp
  | cons coefficient coefficients ih =>
      intro point count hcount
      cases point with
      | nil => simp
      | cons value point =>
          obtain ⟨count, rfl⟩ : ∃ less, count = less + 1 :=
            ⟨count - 1, by rw [List.length_cons] at hcount; omega⟩
          rw [List.zipWith_cons_cons, List.sum_cons, Finset.sum_range_succ',
            ih point (Nat.le_of_succ_le_succ hcount), add_comm]
          rfl

/-- A face of the box reads one coordinate. -/
theorem sum_zipWith_face {dim input : Nat} {point : List ℚ} (hlength : point.length = dim) (hinput : input < dim) :
    (List.zipWith (· * ·) ((List.range dim).map fun other => if other = input then (1 : ℚ) else 0) point).sum =
      point.getD input 0 := by
  rw [sum_zipWith_eq_sum_range _ point hlength.le]
  rw [Finset.sum_eq_single input]
  · simp [hinput]
  · intro other hother hne
    simp [List.getD_eq_getElem?_getD, Finset.mem_range.mp hother, hne]
  · intro hnot
    exact absurd (Finset.mem_range.mpr hinput) hnot

theorem holds_box_iff {dim : Nat} {point : List ℚ} (hlength : point.length = dim) :
    (∀ inequality ∈ box dim, inequality.Holds point) ↔ ∀ value ∈ point, value ≤ 1 := by
  simp only [box, List.mem_map, List.mem_range, forall_exists_index, and_imp,
    forall_apply_eq_imp_iff₂, Holds]
  constructor
  · intro h value hvalue
    obtain ⟨input, hinput, rfl⟩ := List.mem_iff_getElem.mp hvalue
    have := h input (hlength ▸ hinput)
    rw [sum_zipWith_face hlength (hlength ▸ hinput)] at this
    rwa [List.getD_eq_getElem _ _ hinput] at this
  · intro h input hinput
    rw [sum_zipWith_face hlength hinput, List.getD_eq_getElem _ _ (hlength ▸ hinput)]
    exact h _ (List.getElem_mem _)

/-- The points of a program are those without negative coordinates that satisfy its inequalities. -/
theorem holds_ofProgram_iff {dim : Nat} (constraints : List (Constraint ℚ)) {point : List ℚ}
    (hlength : point.length = dim) (hnonneg : ∀ value ∈ point, 0 ≤ value) :
    (∀ inequality ∈ ofProgram dim constraints, inequality.Holds point) ↔
      point ∈ feasible dim constraints := by
  simp only [ofProgram, List.forall_mem_append, List.forall_mem_map, holds_ofConstraint,
    holds_box_iff hlength, feasible, unitBox, Set.mem_ofPred_eq]
  constructor
  · rintro ⟨hconstraints, hbox⟩
    exact ⟨⟨hlength, fun value hvalue => ⟨hnonneg value hvalue, hbox value hvalue⟩⟩, hconstraints⟩
  · rintro ⟨⟨-, hbox⟩, hconstraints⟩
    exact ⟨hconstraints, fun value hvalue => (hbox value hvalue).2⟩

/-- Later rows that the origin violates have a higher rank. -/
theorem artificialRank_lt_artificialRank {inequalities : List (Inequality ℚ)} {row other : Nat}
    (hrow : row < inequalities.length) (hcut : inequalities[row].cutsOrigin = true)
    (hlt : row < other) : artificialRank inequalities row < artificialRank inequalities other := by
  have hsucc : artificialRank inequalities (row + 1) = artificialRank inequalities row + 1 := by
    rw [artificialRank, List.take_succ_eq_append_getElem hrow, List.countP_append,
      List.countP_singleton, if_pos hcut, artificialRank]
  have hle : artificialRank inequalities (row + 1) ≤ artificialRank inequalities other :=
    (List.take_sublist_take_left hlt).countP_le
  omega

theorem artificialRank_injective {inequalities : List (Inequality ℚ)}
    {row other : Fin inequalities.length} (hrow : inequalities[row].cutsOrigin = true)
    (hother : inequalities[other].cutsOrigin = true)
    (h : artificialRank inequalities row = artificialRank inequalities other) : row = other := by
  rcases lt_trichotomy row.val other.val with hlt | heq | hgt
  · exact absurd h (artificialRank_lt_artificialRank row.isLt hrow hlt).ne
  · exact Fin.ext heq
  · exact absurd h (artificialRank_lt_artificialRank other.isLt hother hgt).ne'

/-- Every rank below the number of artificial columns is that of a row. -/
theorem exists_artificialRank {inequalities : List (Inequality ℚ)} {rank : Nat} (h : rank < artificials inequalities) :
    ∃ row : Fin inequalities.length, inequalities[row].cutsOrigin = true ∧ artificialRank inequalities row = rank := by
  induction inequalities generalizing rank with
  | nil => cases h
  | cons inequality inequalities ih =>
      have hbehind : ∀ {less : Nat}, less < artificials inequalities →
          less + (if inequality.cutsOrigin = true then 1 else 0) = rank →
          ∃ row : Fin (inequality :: inequalities).length, (inequality :: inequalities)[row].cutsOrigin = true ∧
            artificialRank (inequality :: inequalities) row = rank := by
        intro less hless hrank
        obtain ⟨row, hcut, rfl⟩ := ih hless
        refine ⟨row.succ, hcut, ?_⟩
        rw [artificialRank, Fin.val_succ, List.take_succ_cons, List.countP_cons]
        exact hrank
      rw [artificials, List.countP_cons] at h
      by_cases hcut : inequality.cutsOrigin = true
      · rw [if_pos hcut] at h hbehind
        cases rank with
        | zero => exact ⟨⟨0, Nat.succ_pos _⟩, hcut, rfl⟩
        | succ less => exact hbehind (Nat.lt_of_succ_lt_succ h) rfl
      · rw [if_neg hcut] at h hbehind
        exact hbehind h rfl

end Inequality

namespace Tableau

variable (dim : Nat) (inequalities : List (Inequality ℚ))

theorem build_entry (row : Fin inequalities.length) (column : Fin (width dim inequalities)) :
    (build dim inequalities).entry row column = initialEntry dim inequalities row column := by
  simp only [entry, build, Vector.get_ofFn]

theorem build_bound (row : Fin inequalities.length) :
    (build dim inequalities).bound row = initialBound inequalities row := by
  simp only [bound, build, Vector.get_ofFn]

theorem build_basic (row : Fin inequalities.length) :
    (build dim inequalities).basic row = initialBasis dim inequalities row := by
  simp only [basic, build, Vector.get_ofFn]

/-- The artificial column of a row, if it has one. -/
def artificialColumn (row : Fin inequalities.length) : Nat :=
  ordinary dim inequalities + Inequality.artificialRank inequalities row

def slackColumn (row : Fin inequalities.length) : Fin (width dim inequalities) :=
  ⟨dim + row, (Nat.add_lt_add_left row.isLt dim).trans_le (Nat.le_add_right _ _)⟩

/-- What the structural columns and the slack of a row add up to. -/
def activity (row : Fin inequalities.length) (values : Nat → ℚ) : ℚ :=
  ∑ input ∈ Finset.range dim, inequalities[row].coefficients.getD input 0 * values input +
    values (dim + row)

variable {dim inequalities}

theorem ordinary_le_artificialColumn (row : Fin inequalities.length) :
    ordinary dim inequalities ≤ artificialColumn dim inequalities row :=
  Nat.le_add_right _ _

theorem slackEntry_of_ordinary_le {row : Fin inequalities.length} {column : Nat}
    (h : ordinary dim inequalities ≤ column) (inequality : Inequality ℚ) :
    slackEntry dim row inequality column = 0 := by
  have := row.isLt
  simp only [ordinary] at h
  rw [slackEntry, if_neg (by omega), if_neg (by omega)]

/-- The artificial column is the only one in which a negated row differs from the negated inequality. -/
theorem initialEntry_of_cut {row : Fin inequalities.length}
    (hcut : inequalities[row].cutsOrigin = true) (column : Nat) :
    initialEntry dim inequalities row column =
      (if column = artificialColumn dim inequalities row then 1 else 0) -
        slackEntry dim row inequalities[row] column := by
  rw [initialEntry]
  simp only [hcut, if_true]
  split_ifs with hcolumn hnot hnot
  · rw [slackEntry_of_ordinary_le (by omega), sub_zero]
  · exact absurd hcolumn hnot
  · exact absurd hnot hcolumn
  · rw [zero_sub]

theorem initialEntry_of_not_cut {row : Fin inequalities.length}
    (hcut : ¬inequalities[row].cutsOrigin = true) (column : Nat) :
    initialEntry dim inequalities row column = slackEntry dim row inequalities[row] column := by
  rw [initialEntry]
  simp only [hcut, if_false, Bool.false_eq_true]

theorem sum_slackEntry (row : Fin inequalities.length) (values : Nat → ℚ) :
    ∑ column ∈ Finset.range (width dim inequalities),
        slackEntry dim row inequalities[row] column * values column =
      activity dim inequalities row values := by
  have hrow := row.isLt
  rw [width, ordinary, Nat.add_assoc, Finset.sum_range_add, activity]
  congr 1
  · refine Finset.sum_congr rfl fun input hinput => ?_
    rw [slackEntry, if_pos (Finset.mem_range.mp hinput)]
  · rw [Finset.sum_eq_single row.val]
    · rw [slackEntry, if_neg (by omega), if_pos rfl, one_mul]
    · intro other _ hne
      rw [slackEntry, if_neg (by omega), if_neg (by omega), zero_mul]
    · intro hnot
      exact absurd (Finset.mem_range.mpr (by omega)) hnot

theorem artificialColumn_lt (row : Fin inequalities.length)
    (hcut : inequalities[row].cutsOrigin = true) :
    artificialColumn dim inequalities row < width dim inequalities := by
  have := Inequality.artificialRank_lt inequalities row row.isLt hcut
  simp only [artificialColumn, width]
  omega

/-- The equations of the first tableau: a row's activity is its bound, up to its artificial column. -/
theorem solves_build_iff (values : Nat → ℚ) :
    (build dim inequalities).Solves (fun column => values column) ↔
      ∀ row : Fin inequalities.length, activity dim inequalities row values =
        inequalities[row].bound + if inequalities[row].cutsOrigin = true then
          values (artificialColumn dim inequalities row) else 0 := by
  refine forall_congr' fun row => ?_
  simp only [build_entry, build_bound]
  rw [Fin.sum_univ_eq_sum_range fun column =>
    initialEntry dim inequalities row column * values column]
  by_cases hcut : inequalities[row].cutsOrigin = true
  · have hsum : ∑ column ∈ Finset.range (width dim inequalities),
        initialEntry dim inequalities row column * values column =
          values (artificialColumn dim inequalities row) - activity dim inequalities row values := by
      simp only [initialEntry_of_cut hcut, sub_mul, Finset.sum_sub_distrib, ite_mul, one_mul, zero_mul]
      rw [Finset.sum_ite_eq', if_pos (Finset.mem_range.mpr (artificialColumn_lt _ hcut)), sum_slackEntry]
    rw [hsum, initialBound, if_pos hcut, if_pos hcut]
    constructor <;> intro h <;> linarith
  · simp only [initialEntry_of_not_cut hcut, sum_slackEntry]
    rw [initialBound, if_neg hcut, if_neg hcut, add_zero]

variable (dim inequalities) in
/-- Values of all columns from those of the structural and the artificial ones: each slack is what its row
leaves. -/
def fill (structural artificial : Nat → ℚ) (column : Nat) : ℚ :=
  if column < dim then structural column
  else if h : column - dim < inequalities.length then
    inequalities[column - dim].bound -
        ∑ input ∈ Finset.range dim,
          inequalities[column - dim].coefficients.getD input 0 * structural input +
      if inequalities[column - dim].cutsOrigin = true then
        artificial (artificialColumn dim inequalities ⟨column - dim, h⟩) else 0
  else artificial column

variable {structural artificial : Nat → ℚ}

theorem fill_structural {input : Nat} (h : input < dim) :
    fill dim inequalities structural artificial input = structural input :=
  if_pos h

theorem fill_artificial {column : Nat} (h : ordinary dim inequalities ≤ column) :
    fill dim inequalities structural artificial column = artificial column := by
  simp only [ordinary] at h
  rw [fill, if_neg (by omega), dif_neg (by omega)]

theorem fill_slack (row : Fin inequalities.length) :
    fill dim inequalities structural artificial (dim + row) =
      inequalities[row].bound -
          ∑ input ∈ Finset.range dim,
            inequalities[row].coefficients.getD input 0 * structural input +
        if inequalities[row].cutsOrigin = true then
          artificial (artificialColumn dim inequalities row) else 0 := by
  have hrow : dim + row.val - dim = row.val := Nat.add_sub_cancel_left dim row
  simp only [fill, hrow, if_neg (Nat.not_lt.mpr (Nat.le_add_right dim row)), dif_pos row.isLt]
  rfl

theorem solves_fill (structural artificial : Nat → ℚ) :
    (build dim inequalities).Solves
      (fun column => fill dim inequalities structural artificial column) := by
  rw [solves_build_iff]
  intro row
  have hstructural : ∑ input ∈ Finset.range dim, inequalities[row].coefficients.getD input 0 *
      fill dim inequalities structural artificial input =
        ∑ input ∈ Finset.range dim, inequalities[row].coefficients.getD input 0 * structural input :=
    Finset.sum_congr rfl fun input hinput => by rw [fill_structural (Finset.mem_range.mp hinput)]
  rw [activity, hstructural, fill_slack, fill_artificial (ordinary_le_artificialColumn row)]
  ring

/-- A unit of an artificial column takes a unit of the slack of its row and nothing else. -/
theorem fill_single (structural : Nat → ℚ) {row : Fin inequalities.length}
    (hcut : inequalities[row].cutsOrigin = true) (column : Nat) :
    fill dim inequalities structural (Pi.single (artificialColumn dim inequalities row) 1) column -
        fill dim inequalities structural 0 column =
      (if column = dim + row then 1 else 0) + if column = artificialColumn dim inequalities row then 1 else 0 := by
  have hslack : dim + row.val < ordinary dim inequalities := Nat.add_lt_add_left row.isLt dim
  have hartificial : ordinary dim inequalities ≤ artificialColumn dim inequalities row :=
    ordinary_le_artificialColumn row
  rcases Nat.lt_or_ge column dim with hdim | hdim
  · rw [fill_structural hdim, fill_structural hdim, if_neg (by omega), if_neg (by omega), sub_self, add_zero]
  · rcases Nat.lt_or_ge column (ordinary dim inequalities) with hcolumn | hcolumn
    · obtain ⟨other, rfl⟩ : ∃ other : Fin inequalities.length, column = dim + other :=
        ⟨⟨column - dim, Nat.sub_lt_left_of_lt_add hdim hcolumn⟩, (Nat.add_sub_cancel' hdim).symm⟩
      rw [fill_slack, fill_slack, if_neg (hcolumn.trans_le hartificial).ne, Pi.zero_apply, ite_self, add_zero,
        add_zero, add_sub_cancel_left, Pi.single_apply]
      by_cases hother : other = row
      · rw [hother, if_pos hcut, if_pos rfl, if_pos rfl]
      · rw [if_neg fun heq => hother (Fin.ext (Nat.add_left_cancel heq))]
        split_ifs with hcut' heq
        · exact absurd (Inequality.artificialRank_injective hcut' hcut (Nat.add_left_cancel heq)) hother
        · rfl
        · rfl
    · rw [fill_artificial hcolumn, fill_artificial hcolumn, if_neg (by omega), Pi.single_apply, Pi.zero_apply,
        sub_zero, zero_add]

/-! ### Soundness of the first tableau -/

theorem build_nonnegative : (build dim inequalities).Nonnegative := by
  intro row
  rw [build_bound, initialBound]
  split_ifs with hcut
  · exact neg_nonneg.mpr (of_decide_eq_true hcut).le
  · exact not_lt.mp fun hneg => hcut (decide_eq_true hneg)

theorem build_canonical : (build dim inequalities).Canonical := by
  intro row other
  rw [build_entry, build_basic]
  by_cases hcut : inequalities[row].cutsOrigin = true
  · have hbasic : (initialBasis dim inequalities row).val = artificialColumn dim inequalities row := by
      rw [initialBasis, dif_pos hcut]
      rfl
    rw [hbasic]
    by_cases hother : inequalities[other].cutsOrigin = true
    · rw [initialEntry_of_cut hother, slackEntry_of_ordinary_le (ordinary_le_artificialColumn row), sub_zero]
      refine if_congr ⟨fun h => ?_, fun h => by rw [h]⟩ rfl rfl
      exact (Inequality.artificialRank_injective hcut hother (Nat.add_left_cancel h)).symm
    · rw [initialEntry_of_not_cut hother, slackEntry_of_ordinary_le (ordinary_le_artificialColumn row), if_neg]
      rintro rfl
      exact hother hcut
  · have hbasic : (initialBasis dim inequalities row).val = dim + row := by
      rw [initialBasis, dif_neg hcut]
    have hrow := row.isLt
    rw [hbasic]
    by_cases hother : inequalities[other].cutsOrigin = true
    · have hne : other ≠ row := by
        rintro rfl
        exact hcut hother
      rw [initialEntry_of_cut hother, slackEntry, if_neg (by simp only [artificialColumn, ordinary]; omega),
        if_neg (by omega), if_neg (fun h => hne (Fin.ext (by omega))), if_neg hne, sub_zero]
    · rw [initialEntry_of_not_cut hother, slackEntry, if_neg (by omega)]
      exact if_congr ⟨fun h => Fin.ext (by omega), fun h => by rw [h]⟩ rfl rfl

theorem build_sound : Sound (build dim inequalities) (build dim inequalities) :=
  ⟨build_canonical, build_nonnegative, fun _ => Iff.rfl⟩

/-! ### Solutions and points -/

/-- No artificial column is in use. -/
def Proper (dim : Nat) (inequalities : List (Inequality ℚ))
    (values : Fin (width dim inequalities) → ℚ) : Prop :=
  ∀ column : Fin (width dim inequalities), ordinary dim inequalities ≤ column.val → values column = 0

/-- The values of the structural columns. -/
def pointOf (dim : Nat) (inequalities : List (Inequality ℚ))
    (values : Fin (width dim inequalities) → ℚ) : List ℚ :=
  List.ofFn fun input : Fin dim =>
    values ⟨input, input.isLt.trans_le ((Nat.le_add_right _ _).trans (Nat.le_add_right _ _))⟩

@[simp]
theorem length_pointOf (values : Fin (width dim inequalities) → ℚ) :
    (pointOf dim inequalities values).length = dim :=
  List.length_ofFn

theorem getElem_pointOf {values : Fin (width dim inequalities) → ℚ} {input : Nat}
    (h : input < (pointOf dim inequalities values).length) :
    (pointOf dim inequalities values)[input] =
      values ⟨input, (length_pointOf values ▸ h).trans_le
        ((Nat.le_add_right _ _).trans (Nat.le_add_right _ _))⟩ :=
  List.getElem_ofFn _

/-- A point without negative coordinates that satisfies all inequalities is a solution with its slacks. -/
theorem exists_solution_of_holds {point : List ℚ} (hlength : point.length = dim)
    (hnonneg : ∀ value ∈ point, 0 ≤ value)
    (hholds : ∀ inequality ∈ inequalities, inequality.Holds point) :
    ∃ values, (build dim inequalities).Solves values ∧ (∀ column, 0 ≤ values column) ∧
      Proper dim inequalities values ∧ pointOf dim inequalities values = point := by
  refine ⟨_, solves_fill (fun input => point.getD input 0) (fun _ => 0), fun column => ?_,
    fun column hcolumn => fill_artificial hcolumn, ?_⟩
  · rcases Nat.lt_or_ge column dim with hdim | hdim
    · rw [fill_structural hdim, List.getD_eq_getElem _ _ (hlength ▸ hdim)]
      exact hnonneg _ (List.getElem_mem _)
    · rcases Nat.lt_or_ge column (ordinary dim inequalities) with hslack | hartificial
      · obtain ⟨row, hrow⟩ : ∃ row : Fin inequalities.length, column.val = dim + row :=
          ⟨⟨column - dim, by simp only [ordinary] at hslack; omega⟩, by simp only; omega⟩
        rw [hrow, fill_slack, ite_self, add_zero,
          ← Inequality.sum_zipWith_eq_sum_range _ point hlength.le]
        exact sub_nonneg.mpr (hholds _ (List.getElem_mem _))
      · rw [fill_artificial hartificial]
  · subst hlength
    refine List.ext_getElem (List.length_ofFn) fun place _ hplace => ?_
    rw [getElem_pointOf, fill_structural hplace, List.getD_eq_getElem _ _ hplace]

/-- The values of the columns go on beyond the last one. -/
theorem exists_extension {count : Nat} (values : Fin count → ℚ) :
    ∃ extended : Nat → ℚ, values = fun column : Fin count => extended column :=
  ⟨Function.extend Fin.val values 0, funext fun column => (Fin.val_injective.extend_apply values 0 column).symm⟩

/-- The slack columns of a proper solution have what the inequalities leave at its point. -/
theorem slack_of_proper {values : Fin (width dim inequalities) → ℚ} (hsolves : (build dim inequalities).Solves values)
    (hproper : Proper dim inequalities values) (row : Fin inequalities.length) :
    values (slackColumn dim inequalities row) = inequalities[row].slack (pointOf dim inequalities values) := by
  obtain ⟨extended, rfl⟩ := exists_extension values
  have heq := (solves_build_iff extended).mp hsolves row
  have hartificial : (if inequalities[row].cutsOrigin = true then
      extended (artificialColumn dim inequalities row) else 0) = 0 := by
    split_ifs with hcut
    · exact hproper ⟨_, artificialColumn_lt row hcut⟩ (Nat.le_add_right _ _)
    · rfl
  have hpoint : ∑ input ∈ Finset.range dim, inequalities[row].coefficients.getD input 0 *
      (pointOf dim inequalities fun column => extended column).getD input 0 =
        ∑ input ∈ Finset.range dim, inequalities[row].coefficients.getD input 0 * extended input := by
    refine Finset.sum_congr rfl fun input hinput => ?_
    have hdim := Finset.mem_range.mp hinput
    rw [List.getD_eq_getElem (pointOf dim inequalities _) _ (by rwa [length_pointOf]),
      getElem_pointOf]
  rw [Inequality.slack, Inequality.sum_zipWith_eq_sum_range _ _ (length_pointOf _).le, hpoint]
  rw [activity, hartificial, add_zero] at heq
  exact eq_sub_of_add_eq' heq

/-- A proper solution without negative values is a point that satisfies all inequalities. -/
theorem holds_pointOf {values : Fin (width dim inequalities) → ℚ}
    (hsolves : (build dim inequalities).Solves values) (hnonneg : ∀ column, 0 ≤ values column)
    (hproper : Proper dim inequalities values) :
    ∀ inequality ∈ inequalities, inequality.Holds (pointOf dim inequalities values) := by
  intro inequality hmem
  obtain ⟨row, hrow, rfl⟩ := List.mem_iff_getElem.mp hmem
  rw [Inequality.holds_iff_slack_nonneg]
  exact slack_of_proper hsolves hproper ⟨row, hrow⟩ ▸ hnonneg _

theorem pointOf_nonneg {values : Fin (width dim inequalities) → ℚ}
    (hnonneg : ∀ column, 0 ≤ values column) :
    ∀ value ∈ pointOf dim inequalities values, 0 ≤ value := by
  intro value hvalue
  obtain ⟨input, rfl⟩ := List.mem_ofFn.mp hvalue
  exact hnonneg _

end Tableau

end ReluLogic
