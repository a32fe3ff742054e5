import Mathlib.Data.Finset.Lattice.Fold
import ReluLogic.Proofs.Formula.Tree
import ReluLogic.Proofs.Lattice.Assembly

/-!
The max-min value of a table. A join by any table of the right size exists and has, under every valuation, the
greatest over all places of the least degree at the place and at those that the table marks above it. The number of
threads decides how the join is written, not which value it has.
-/

namespace ReluLogic

/-- The places that a contribution takes the least of: its own and those marked above it. -/
def takenPlaces (count : Nat) (isAbove : Nat → Nat → Bool) (i : Nat) : Finset Nat :=
  insert i {k ∈ Finset.range count | isAbove i k = true}

/-- The greatest over all places of the least value at the place and at those marked above it. -/
def maxMin (count : Nat) (hcount : count ≠ 0) (isAbove : Nat → Nat → Bool) (value : Nat → ℚ) : ℚ :=
  (Finset.range count).sup' (Finset.nonempty_range_iff.mpr hcount) fun i =>
    (takenPlaces count isAbove i).inf' (Finset.insert_nonempty i _) value

variable {count : Nat} {isAbove : Nat → Nat → Bool} {value : Nat → ℚ}

theorem mem_takenPlaces {i k : Nat} (hi : i < count) :
    k ∈ takenPlaces count isAbove i ↔ k < count ∧ (k = i ∨ isAbove i k = true) := by
  simp only [takenPlaces, Finset.mem_insert, Finset.mem_filter, Finset.mem_range]
  constructor
  · rintro (rfl | ⟨hk, habove⟩)
    · exact ⟨hi, Or.inl rfl⟩
    · exact ⟨hk, Or.inr habove⟩
  · rintro ⟨hk, rfl | habove⟩
    · exact Or.inl rfl
    · exact Or.inr ⟨hk, habove⟩

/-- What is attained at one place and undercut at every place is the max-min value. -/
theorem MaxMin.eq_maxMin {degree : ℚ} (h : MaxMin count isAbove value degree) (hcount : count ≠ 0) :
    degree = maxMin count hcount isAbove value := by
  obtain ⟨hlower, i, hi, hupper⟩ := h
  apply le_antisymm
  · have hleast : degree ≤ (takenPlaces count isAbove i).inf' (Finset.insert_nonempty i _) value := by
      apply Finset.le_inf'
      intro k hk
      obtain ⟨hlt, hmarked⟩ := (mem_takenPlaces hi).mp hk
      exact hupper k hlt hmarked
    exact hleast.trans (Finset.le_sup' (fun i => (takenPlaces count isAbove i).inf' (Finset.insert_nonempty i _) value)
      (Finset.mem_range.mpr hi))
  · apply Finset.sup'_le
    intro i hi
    have hi := Finset.mem_range.mp hi
    obtain ⟨k, hk, hmarked, hle⟩ := hlower i hi
    exact (Finset.inf'_le value ((mem_takenPlaces hi).mpr ⟨hk, hmarked⟩)).trans hle

namespace PieceFamily

variable {α : Type} [Scalar α] {family : PieceFamily α} {formulas : List Formula}

/-- For at least one piece and one formula per piece, none of them empty, every table with one row per piece gives
under every valuation of the variables one value, the greatest over all pieces of the least degree among the formula
of the piece and the formulas of the pieces that the table marks above it. For any number of threads the join by the
table exists and has this value. The table of the family itself, if there is one, gives the very formula that the
join with comparisons made on the way gives. -/
theorem assembleWithTable_maxMin (hpieces : family.pieces.length ≠ 0)
    (hlength : formulas.length = family.pieces.length)
    (hformulas : ∀ formula ∈ formulas, formula.Ordered ∧ formula ≠ .empty) :
    (∀ table : DominationTable, table.size = family.pieces.length → ∀ valuation : Nat → ℚ, ∃ value : Nat → ℚ,
      (∀ (k : Nat) (formula : Formula), formulas[k]? = some formula →
        formula.evaluate valuation = .ok (some (value k))) ∧
      ∀ threads, ∃ lattice, family.assembleWithTable table formulas threads = .ok lattice ∧
        lattice.evaluate valuation = .ok (some (maxMin family.pieces.length hpieces table.isAbove value))) ∧
    ∀ table, family.dominationTable = .ok table → ∀ threads, ∃ lattice,
      family.assemble formulas threads = .ok lattice ∧
      family.assembleWithTable table formulas threads = .ok lattice := by
  refine ⟨fun table hsize valuation => ?_, fun table htable threads => ?_⟩
  · have hdenotes : ∀ k : Nat, ∃ degree, ∀ formula : Formula, formulas[k]? = some formula →
        formula.Denotes valuation degree := by
      intro k
      cases hk : formulas[k]? with
      | none => exact ⟨0, fun formula hformula => absurd hformula (Option.some_ne_none formula).symm⟩
      | some formula =>
          obtain ⟨hordered, hne⟩ := hformulas formula (List.mem_of_getElem? hk)
          obtain ⟨degree, hdegree⟩ := hordered.exists_denotes hne valuation
          exact ⟨degree, fun other hother => Option.some.inj hother ▸ hdegree⟩
    choose value hvalue using hdenotes
    refine ⟨value, hvalue, fun threads => ?_⟩
    obtain ⟨lattice, hlattice⟩ := exists_assembleWithTable_of_size hsize hlength threads
    obtain ⟨degree, hdegree, hmaxMin⟩ := exists_assembleWithTable_denotes hlattice
      (List.ne_nil_of_length_pos (Nat.pos_of_ne_zero hpieces)) hvalue
    exact ⟨lattice, hlattice, hmaxMin.eq_maxMin hpieces ▸ hdegree⟩
  · obtain ⟨lattice, hlattice⟩ := exists_assembleWithTable_eq htable hlength threads
    exact ⟨lattice, (assemble_eq_assembleWithTable htable formulas threads).trans hlattice, hlattice⟩

/-- Formulas with shared and merged parts, one for each piece of `doubled`. -/
def compoundFormulas : List Formula :=
  [.atom 2, ((Formula.atom 3).push .strongDisjunction (.literal (-4))).negate, (Formula.atom 4).push .maximum (.atom 2)]

theorem assembleWithTable_maxMin_doubled :
    ∃ lattice, doubled.assemble compoundFormulas 2 = .ok lattice ∧
      lattice.evaluate ([0, 0, 1 / 2, 1 / 4, 7 / 8].getD · 0) = .ok (some (5 / 8 : ℚ)) := by
  let table : DominationTable := ⟨[[true, false, true], [false, true, true], [false, true, true]],
    [[true, true, false], [true, true, false], [true, false, true]]⟩
  have htable : doubled.dominationTable = .ok table := by decide +kernel
  have hformulas : ∀ formula ∈ compoundFormulas, formula.Ordered ∧ formula ≠ .empty := by
    intro formula hformula
    refine ⟨Formula.Built.ordered ?_, ?_⟩
    · simp only [compoundFormulas, List.mem_cons, List.not_mem_nil, or_false] at hformula
      rcases hformula with rfl | rfl | rfl
      · exact .atom 2
      · exact (Formula.Built.push (.atom 3) .strongDisjunction (.literal (-4))).negate
      · exact .push (.atom 4) .maximum (.atom 2)
    · revert formula
      decide
  obtain ⟨hvalues, hsame⟩ := assembleWithTable_maxMin (show doubled.pieces.length ≠ 0 by decide) rfl hformulas
  obtain ⟨lattice, hassemble, hlattice⟩ := hsame table htable 2
  obtain ⟨value, hvalue, hjoined⟩ := hvalues table rfl ([0, 0, 1 / 2, 1 / 4, 7 / 8].getD · 0)
  obtain ⟨joined, hjoin, hdegree⟩ := hjoined 2
  cases hlattice.symm.trans hjoin
  refine ⟨lattice, hassemble, hdegree.trans (congrArg (Except.ok ∘ some) ?_)⟩
  have hread : ∀ {k : Nat} {formula : Formula} {degree : ℚ}, compoundFormulas[k]? = some formula →
      formula.evaluate ([0, 0, 1 / 2, 1 / 4, 7 / 8].getD · 0) = .ok (some degree) → value k = degree := by
    intro k formula degree hformula hdegree
    exact Option.some.inj (Except.ok.inj ((hvalue k formula hformula).symm.trans hdegree))
  have hzero : value 0 = 1 / 2 := hread rfl (by decide +kernel)
  have hone : value 1 = 5 / 8 := hread rfl (by decide +kernel)
  have htwo : value 2 = 7 / 8 := hread rfl (by decide +kernel)
  refine (MaxMin.eq_maxMin ⟨fun i hi => ?_, 1, by decide, fun k hk hmarked => ?_⟩ (by decide)).symm
  · match i, hi with
    | 0, _ => exact ⟨0, by decide, Or.inl rfl, by rw [hzero]; norm_num⟩
    | 1, _ => exact ⟨1, by decide, Or.inl rfl, hone.le⟩
    | 2, _ => exact ⟨1, by decide, Or.inr rfl, hone.le⟩
  · match k, hk with
    | 0, _ => exact absurd hmarked (by decide)
    | 1, _ => exact hone.ge
    | 2, _ => rw [htwo]; norm_num

end PieceFamily

end ReluLogic
