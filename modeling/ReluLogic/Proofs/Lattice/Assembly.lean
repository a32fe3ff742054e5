import ReluLogic.Proofs.Lattice.Join
import ReluLogic.Proofs.LinearProgram.Interval

/-!
Assembled joins. With the table of a family or with comparisons made on the way the join is the same formula, and
it exists for every list of one formula per piece. If the family passes the check and the formulas carry the values
of the pieces, cut off or not, the join carries on the region of each piece the value of that piece, up to the
tolerance of the check.
-/

namespace ReluLogic

namespace PieceFamily

section Assembling

variable {α : Type} {family : PieceFamily α} {table : DominationTable}

/-- One formula per piece is joined by every table with one row per piece. -/
theorem exists_assembleWithTable_of_size (hsize : table.size = family.pieces.length) {formulas : List Formula}
    (hlength : formulas.length = family.pieces.length) (threads : Nat) :
    ∃ lattice, family.assembleWithTable table formulas threads = .ok lattice := by
  rw [assembleWithTable, if_neg (not_not.mpr hsize), joinBy, if_neg (not_not.mpr hlength)]
  refine (exists_mapM_eq_ok ?_).elim fun contributions hcontributions =>
    ⟨_, bind_eq_ok.mpr ⟨contributions, hcontributions, rfl⟩⟩
  exact fun _ _ => ⟨_, rfl⟩

variable [Scalar α]

/-- Comparing on the way gives the rows of the table. -/
theorem assemble_eq_assembleWithTable (h : family.dominationTable = .ok table) (formulas : List Formula)
    (threads : Nat) : family.assemble formulas threads = family.assembleWithTable table formulas threads := by
  have hsize : ¬ table.size ≠ family.pieces.length := not_not.mpr (size_dominationTable h)
  rw [assembleWithTable, if_neg hsize, assemble, joinBy, joinBy]
  by_cases hlength : formulas.length ≠ family.pieces.length
  · rw [if_pos hlength, if_pos hlength]
  · rw [if_neg hlength, if_neg hlength]
    apply congrArg (· >>= _)
    apply mapM_congr_mem
    rintro ⟨⟨piece, formula⟩, i⟩ hmem
    rw [List.mem_zipIdx_iff_getElem?, List.getElem?_zip_eq_some] at hmem
    show (family.aboveRow piece i >>= _) = (Except.ok (table.above.getD i []) >>= _)
    rw [(rows_dominationTable h hmem.1).1]

/-- One formula per piece is joined by every table of the family. -/
theorem exists_assembleWithTable_eq (h : family.dominationTable = .ok table) {formulas : List Formula}
    (hlength : formulas.length = family.pieces.length) (threads : Nat) :
    ∃ lattice, family.assembleWithTable table formulas threads = .ok lattice :=
  exists_assembleWithTable_of_size (size_dominationTable h) hlength threads

end Assembling

section Values

variable {family : PieceFamily ℚ} {dim threads : Nat} {table : DominationTable} {formulas : List Formula}
  {lattice : Formula} {point : List ℚ} {valuation : Nat → ℚ} {cut : ℚ → ℚ}

/-- Each formula has the degree that `cut` makes of the value of its piece at a point. -/
def Carries (family : PieceFamily ℚ) (cut : ℚ → ℚ) (point : List ℚ) (valuation : Nat → ℚ)
    (formulas : List Formula) : Prop :=
  ∀ (k : Nat) (piece : Piece) (formula : Formula), family.pieces[k]? = some piece → formulas[k]? = some formula →
    formula.evaluate valuation = .ok (some (cut (piece.evaluate point)))

/-- Where the formulas carry the pieces the join carries, on the region of each piece, that piece up to the
tolerance. -/
theorem exists_lattice_denotes (hmaximizes : family.oracle.Maximizes dim) (hformed : family.WellFormed dim)
    (htolerance : 0 ≤ family.tolerance) (hcheck : family.checkLatticeProperty = .ok table)
    (hjoin : family.assembleWithTable table formulas threads = .ok lattice) (hmono : Monotone cut)
    (hslack : ∀ a, cut (a + family.tolerance) ≤ cut a + family.tolerance) (hbox : point ∈ unitBox dim)
    (hcarries : family.Carries cut point valuation formulas) {j : Nat} {piece : Piece}
    (hpiece : family.pieces[j]? = some piece) (hinside : Inside family.prototypes piece.region point) :
    ∃ degree, lattice.Denotes valuation degree ∧ |degree - cut (piece.evaluate point)| ≤ family.tolerance := by
  -- the degree of each formula, by the place of its piece
  set value : Nat → ℚ := fun k => (family.pieces[k]?.map fun other => cut (other.evaluate point)).getD 0 with hvalue
  have hown : ∀ (k : Nat) (other : Piece), family.pieces[k]? = some other →
      value k = cut (other.evaluate point) := by
    intro k other hother
    simp only [hvalue, hother, Option.map_some, Option.getD_some]
  have hlength : formulas.length = family.pieces.length := by
    rw [assembleWithTable] at hjoin
    split_ifs at hjoin
    exact (joinBy_eq_ok hjoin).1
  have hformulas : ∀ (k : Nat) (formula : Formula), formulas[k]? = some formula →
      formula.Denotes valuation (value k) := by
    intro k formula hformula
    have hk : k < family.pieces.length := hlength ▸ (List.getElem?_eq_some_iff.mp hformula).1
    have hother := List.getElem?_eq_getElem hk
    rw [hown k _ hother]
    exact hcarries k _ formula hother hformula
  obtain ⟨degree, hdegree, hmaxMin⟩ := exists_assembleWithTable_denotes hjoin
    (List.ne_nil_of_mem (List.mem_of_getElem? hpiece)) hformulas
  exact ⟨degree, hdegree, abs_maxMin_sub_le hmaximizes hformed htolerance hcheck hmono hslack hbox hown hpiece
    hinside hmaxMin⟩

/-- A family that passes the check is joined up to the tolerance. For any list of one formula per piece and any
number of threads the formulas assembled with the table of the check and with comparisons made on the way are the
same. At a point of the region of a piece, under a valuation for which the formulas carry the values of all pieces,
as they are or cut off to the unit interval, the join has the value of that piece up to the tolerance. -/
theorem assemble_within_tolerance (hmaximizes : family.oracle.Maximizes dim) (hformed : family.WellFormed dim)
    (htolerance : 0 ≤ family.tolerance) (hcheck : family.checkLatticeProperty = .ok table)
    (formulas : List Formula) (hlength : formulas.length = family.pieces.length) (threads : Nat) :
    ∃ lattice, family.assemble formulas threads = .ok lattice ∧
      family.assembleWithTable table formulas threads = .ok lattice ∧
      ∀ cut : ℚ → ℚ, (cut = id ∨ cut = fun value => min 1 (max 0 value)) →
        ∀ piece ∈ family.pieces, ∀ point ∈ unitBox dim, piece.contains family.prototypes point 0 = true →
          ∀ valuation, family.Carries cut point valuation formulas →
            ∃ degree, lattice.evaluate valuation = .ok (some degree) ∧
              |degree - cut (piece.evaluate point)| ≤ family.tolerance ∧
              (family.tolerance = 0 → degree = cut (piece.evaluate point)) := by
  have htable := (checkLatticeProperty_eq_ok hcheck).1
  obtain ⟨lattice, hlattice⟩ := exists_assembleWithTable_eq htable hlength threads
  refine ⟨lattice, (assemble_eq_assembleWithTable htable formulas threads).trans hlattice, hlattice, ?_⟩
  intro cut hcut piece hpiece point hbox hcontains valuation hcarries
  have hshape : Monotone cut ∧ ∀ a, cut (a + family.tolerance) ≤ cut a + family.tolerance := by
    rcases hcut with rfl | rfl
    · exact ⟨monotone_id, fun a => le_rfl⟩
    · exact ⟨fun _ _ hle => clamp_mono hle, fun a => clamp_add_le htolerance⟩
  obtain ⟨j, hj⟩ := List.mem_iff_getElem?.mp hpiece
  obtain ⟨degree, hdegree, hbound⟩ := exists_lattice_denotes hmaximizes hformed htolerance hcheck hlattice hshape.1
    hshape.2 hbox hcarries hj (Piece.contains_iff_inside.mp hcontains)
  refine ⟨degree, hdegree, hbound, fun hzero => ?_⟩
  rw [hzero, abs_nonpos_iff, sub_eq_zero] at hbound
  exact hbound

/-- The pieces of `2 x - 1/2`, cut off to the unit interval. -/
def doubled : PieceFamily ℚ where
  prototypes := [⟨[-1 / 2, 2]⟩, ⟨[-3 / 2, 2]⟩]
  pieces := [.zero 1 [.leq 0], ⟨[⟨-1, 2⟩, ⟨2, 1⟩], [.geq 0, .leq 1]⟩, .one 1 [.geq 1]]
  oracle := Interval.oracle
  tolerance := 0

/-- Variables that stand for the pieces of `doubled`. -/
def doubledFormulas : List Formula :=
  [.atom 2, .atom 3, .atom 4]

/-- On two threads the join has at three eighths the value one quarter of the piece in the middle. -/
theorem assemble_within_tolerance_doubled :
    ∃ lattice, doubled.assemble doubledFormulas 2 = .ok lattice ∧
      lattice.evaluate ([0, 3 / 8, 0, 1 / 4, 1].getD · 0) = .ok (some (1 / 4 : ℚ)) := by
  have hcheck : doubled.checkLatticeProperty = .ok
      ⟨[[true, false, true], [false, true, true], [false, true, true]],
        [[true, true, false], [true, true, false], [true, false, true]]⟩ := by
    decide +kernel
  have hformed : doubled.WellFormed 1 := ⟨by simp [Shaped, doubled], by simp [doubled, Piece.zero, Piece.one]⟩
  obtain ⟨lattice, hassemble, -, hjoined⟩ := assemble_within_tolerance
    Interval.oracle_exact.maximizes hformed le_rfl hcheck doubledFormulas rfl 2
  refine ⟨lattice, hassemble, ?_⟩
  obtain ⟨degree, hdegree, -, hexact⟩ := hjoined id (Or.inl rfl) ⟨[⟨-1, 2⟩, ⟨2, 1⟩], [.geq 0, .leq 1]⟩
    (List.mem_cons_of_mem _ List.mem_cons_self) [3 / 8] ⟨rfl, by norm_num⟩ (by decide +kernel)
    ([0, 3 / 8, 0, 1 / 4, 1].getD · 0) (by
      intro k piece formula hpiece hformula
      match k with
      | 0 | 1 | 2 =>
          cases hpiece
          cases hformula
          decide +kernel
      | k + 3 => cases hpiece)
  rw [hdegree, hexact rfl]
  decide +kernel

end Values

end PieceFamily

end ReluLogic
