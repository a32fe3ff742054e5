import ReluLogic.Lattice.Domination
import ReluLogic.Proofs.Decomposition.Reproduction

/-!
Comparisons in the exact reading. With an exact oracle the table marks a piece as above or below another exactly
where no point of the other's region exceeds the tolerance, and a family that passes the check has for every two
of its pieces one that is below the first and above the second.
-/

namespace ReluLogic

theorem Affine.evaluate_difference {minuend subtrahend : Affine ℚ}
    (h : minuend.coefficients.length = subtrahend.coefficients.length) (point : List ℚ) :
    (minuend.difference subtrahend).evaluate point = minuend.evaluate point - subtrahend.evaluate point := by
  have hsame : minuend.difference subtrahend =
      ⟨List.zipWith (fun c v => c + v * -1) minuend.coefficients subtrahend.coefficients⟩ := by
    refine congrArg Affine.mk (congrArg (List.zipWith · _ _) (funext₂ fun c v => ?_))
    rw [mul_neg_one, sub_eq_add_neg]
  rw [hsame, evaluate_zipWith_add_mul (-1) h, mul_neg_one, ← sub_eq_add_neg]

namespace PieceFamily

section Tables

variable {α : Type} [Scalar α] {family : PieceFamily α} {table : DominationTable} {piece other : Piece} {i k : Nat}

omit [Scalar α] in
/-- The entry of a row of comparisons. -/
theorem getD_of_row (compare : Piece → Except Error Bool) {row : List Bool}
    (h : (family.pieces.zipIdx.mapM fun (other, k) => if i = k then pure true else compare other) = .ok row)
    (hother : family.pieces[k]? = some other) :
    (i = k ∧ row.getD k false = true) ∨ (i ≠ k ∧ compare other = .ok (row.getD k false)) := by
  have hentry : family.pieces.zipIdx[k]? = some (other, k) := by
    rw [List.getElem?_zipIdx, hother, Option.map_some, Nat.zero_add]
  obtain ⟨found, hfound, hok⟩ := exists_getElem?_of_mapM h hentry
  rw [List.getD_eq_getElem?_getD, hfound, Option.getD_some]
  by_cases heq : i = k
  · simp only [heq, if_true] at hok
    cases hok
    exact Or.inl ⟨heq, rfl⟩
  · simp only [if_neg heq] at hok
    exact Or.inr ⟨heq, hok⟩

/-- The rows of the table are those of its pieces. -/
theorem rows_dominationTable (h : family.dominationTable = .ok table)
    (hpiece : family.pieces[i]? = some piece) :
    family.aboveRow piece i = .ok (table.above.getD i []) ∧ family.belowRow piece i = .ok (table.below.getD i []) := by
  obtain ⟨rows, hrows, h⟩ := bind_eq_ok.mp h
  cases h
  have hentry : family.pieces.zipIdx[i]? = some (piece, i) := by
    rw [List.getElem?_zipIdx, hpiece, Option.map_some, Nat.zero_add]
  obtain ⟨⟨above, below⟩, hfound, hok⟩ := exists_getElem?_of_mapM hrows hentry
  obtain ⟨own, habove, hok⟩ := bind_eq_ok.mp hok
  obtain ⟨other, hbelow, hok⟩ := bind_eq_ok.mp hok
  cases hok
  rw [List.getD_eq_getElem?_getD, List.getD_eq_getElem?_getD, List.getElem?_map, List.getElem?_map, hfound]
  exact ⟨habove, hbelow⟩

theorem size_dominationTable (h : family.dominationTable = .ok table) :
    table.size = family.pieces.length := by
  obtain ⟨rows, hrows, h⟩ := bind_eq_ok.mp h
  cases h
  rw [DominationTable.size, List.length_map, ← (mapM_eq_ok.mp hrows).length_eq, List.length_zipIdx]

theorem checkLatticeProperty_eq_ok (h : family.checkLatticeProperty = .ok table) :
    family.dominationTable = .ok table ∧ table.violations = [] := by
  obtain ⟨found, hfound, h⟩ := bind_eq_ok.mp h
  cases hviolations : found.violations with
  | nil =>
      rw [hviolations] at h
      cases h
      exact ⟨hfound, hviolations⟩
  | cons violation violations =>
      rw [hviolations] at h
      cases h

end Tables

variable {family : PieceFamily ℚ} {dim : Nat}

/-- Prototypes and pieces over `dim` inputs. A boundary without a prototype makes the comparisons on its region
fail, so nothing is asked of boundaries. -/
structure WellFormed (dim : Nat) (family : PieceFamily ℚ) : Prop where
  shaped : Shaped dim family.prototypes
  pieces : ∀ piece ∈ family.pieces, piece.coefficients.length = dim + 1

/-- Nowhere on a region one piece exceeds another by more than the tolerance. -/
def AtMost (family : PieceFamily ℚ) (dim : Nat) (region : List Boundary) (minuend subtrahend : Piece) : Prop :=
  ∀ point ∈ unitBox dim, Inside family.prototypes region point →
    minuend.evaluate point ≤ subtrahend.evaluate point + family.tolerance

theorem AtMost.refl (h : 0 ≤ family.tolerance) (dim : Nat) (region : List Boundary) (piece : Piece) :
    family.AtMost dim region piece piece :=
  fun _ _ _ => le_add_of_nonneg_right h

variable {minuend subtrahend piece other : Piece} {region : List Boundary} {index i k : Nat}

/-- The answer of a comparison that succeeds is the true one. -/
theorem isAtMost_eq_ok (hmaximizes : family.oracle.Maximizes dim) (hformed : family.WellFormed dim)
    (hminuend : minuend ∈ family.pieces) (hsubtrahend : subtrahend ∈ family.pieces) {found : Bool}
    (h : family.isAtMost index region minuend subtrahend = .ok found) :
    found = true ↔ family.AtMost dim region minuend subtrahend := by
  obtain ⟨value, hvalue, h⟩ := bind_eq_ok.mp h
  obtain ⟨constraints, hconstraints, hvalue⟩ := bind_eq_ok.mp hvalue
  obtain ⟨outcome, houtcome, hvalue⟩ := bind_eq_ok.mp hvalue
  cases h
  have hlength : ∀ {piece}, piece ∈ family.pieces → (piece.form : Affine ℚ).coefficients.length = dim + 1 :=
    fun hpiece => (List.length_map _).trans (hformed.pieces _ hpiece)
  have hsame := (hlength hminuend).trans (hlength hsubtrahend).symm
  have hdifference : (minuend.form.difference subtrahend.form : Affine ℚ).coefficients.length = dim + 1 := by
    rw [Affine.difference, List.length_zipWith, hlength hminuend, hlength hsubtrahend, min_self]
  rcases hmaximizes.maximize_eq hdifference (hformed.shaped.uniform hconstraints) with
    ⟨greatest, hok, ⟨best, hbest, rfl⟩, hupper⟩ | ⟨hok, -⟩
  · rw [hok] at houtcome
    cases houtcome
    cases hvalue
    rw [decide_eq_true_eq]
    constructor
    · intro hle point hbox hinside
      have hmem := (mem_feasible_iff hformed.shaped hconstraints).mpr ⟨hbox, hinside⟩
      have hpoint := (hupper ⟨point, hmem, rfl⟩).trans hle
      rw [Affine.evaluate_difference hsame] at hpoint
      exact sub_le_iff_le_add'.mp hpoint
    · intro hall
      obtain ⟨hbox, hinside⟩ := (mem_feasible_iff hformed.shaped hconstraints).mp hbest
      rw [Affine.evaluate_difference hsame]
      exact sub_le_iff_le_add'.mpr (hall best hbox hinside)
  · rw [hok] at houtcome
    cases houtcome
    cases hvalue

variable {table : DominationTable}

/-- The table marks the pieces that are above another on its region. -/
theorem isAbove_iff (hmaximizes : family.oracle.Maximizes dim) (hformed : family.WellFormed dim)
    (htolerance : 0 ≤ family.tolerance) (h : family.dominationTable = .ok table)
    (hpiece : family.pieces[i]? = some piece) (hother : family.pieces[k]? = some other) :
    table.isAbove i k = true ↔ family.AtMost dim piece.region piece other := by
  rw [DominationTable.isAbove]
  rcases getD_of_row (family.isAtMost i piece.region piece) (rows_dominationTable h hpiece).1 hother with
    ⟨rfl, htrue⟩ | ⟨-, hok⟩
  · cases hpiece.symm.trans hother
    exact iff_of_true htrue (.refl htolerance dim piece.region piece)
  · exact isAtMost_eq_ok hmaximizes hformed (List.mem_of_getElem? hpiece) (List.mem_of_getElem? hother) hok

/-- The table marks the pieces that are below another on its region. -/
theorem isBelow_iff (hmaximizes : family.oracle.Maximizes dim) (hformed : family.WellFormed dim)
    (htolerance : 0 ≤ family.tolerance) (h : family.dominationTable = .ok table)
    (hpiece : family.pieces[i]? = some piece) (hother : family.pieces[k]? = some other) :
    table.isBelow i k = true ↔ family.AtMost dim piece.region other piece := by
  rw [DominationTable.isBelow]
  rcases getD_of_row (family.isAtMost i piece.region · piece) (rows_dominationTable h hpiece).2 hother with
    ⟨rfl, htrue⟩ | ⟨-, hok⟩
  · cases hpiece.symm.trans hother
    exact iff_of_true htrue (.refl htolerance dim piece.region piece)
  · exact isAtMost_eq_ok hmaximizes hformed (List.mem_of_getElem? hother) (List.mem_of_getElem? hpiece) hok

/-- Without violations every two different pieces have a covering witness. -/
theorem exists_coveringWitness (h : table.violations = []) (hi : i < table.size) (hk : k < table.size)
    (hne : i ≠ k) : ∃ witness < table.size, table.isBelow i witness = true ∧ table.isAbove k witness = true := by
  cases hwitness : table.coveringWitness? i k with
  | none =>
      have hmem : (i, k) ∈ table.violations := by
        refine List.mem_flatMap.mpr ⟨i, List.mem_range.mpr hi, List.mem_map.mpr ⟨k, ?_, rfl⟩⟩
        refine List.mem_filter.mpr ⟨List.mem_range.mpr hk, ?_⟩
        rw [hwitness, bne_iff_ne.mpr hne]
        rfl
      rw [h] at hmem
      exact absurd hmem List.not_mem_nil
  | some witness =>
      have hfound := List.find?_some hwitness
      rw [Bool.and_eq_true] at hfound
      exact ⟨witness, List.mem_range.mp (List.mem_of_find?_eq_some hwitness), hfound⟩

/-- In a family that passes the check every ordered pair of pieces has one that is below the first on its region
and marked as above the second. -/
theorem exists_between (hmaximizes : family.oracle.Maximizes dim) (hformed : family.WellFormed dim)
    (htolerance : 0 ≤ family.tolerance) (h : family.checkLatticeProperty = .ok table)
    (hpiece : family.pieces[i]? = some piece) (hk : k < family.pieces.length) :
    ∃ witness between, family.pieces[witness]? = some between ∧
      family.AtMost dim piece.region between piece ∧ (witness = k ∨ table.isAbove k witness = true) := by
  obtain ⟨htable, hviolations⟩ := checkLatticeProperty_eq_ok h
  have hsize := size_dominationTable htable
  have hi : i < table.size := hsize ▸ (List.getElem?_eq_some_iff.mp hpiece).1
  by_cases hne : i = k
  · exact ⟨i, piece, hpiece, .refl htolerance dim piece.region piece, Or.inl hne⟩
  · obtain ⟨witness, hwitness, hbelow, habove⟩ := exists_coveringWitness hviolations hi (hsize ▸ hk) hne
    have hbetween := List.getElem?_eq_getElem (hsize ▸ hwitness)
    exact ⟨witness, _, hbetween, (isBelow_iff hmaximizes hformed htolerance htable hpiece hbetween).mp hbelow,
      Or.inr habove⟩

end PieceFamily

end ReluLogic
