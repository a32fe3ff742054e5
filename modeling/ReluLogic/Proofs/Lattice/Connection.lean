import ReluLogic.Proofs.Decomposition.Consistency
import ReluLogic.Proofs.Lattice.Segment
import ReluLogic.Proofs.LinearProgram.AntiCycling

/-!
What the lattice check accepts. It asks for every two pieces for a third that connects them, being at most the first
and at least the second on their regions, and fails for no other reason. Pieces with the values of one function are
connected when no piece crosses another on the other's region, since each region then has a point at which comparisons
hold for the whole region, and also when there is one input only, where the steepest piece on the way from one region
to the other connects them. In general they are not.
-/

namespace ReluLogic

namespace PieceFamily

variable {family : PieceFamily ℚ} {dim : Nat} {value : List ℚ → ℚ} {region : List Boundary}
  {piece other between : Piece}

/-- Nowhere on a region a piece is larger than another. -/
def Below (family : PieceFamily ℚ) (dim : Nat) (region : List Boundary) (piece other : Piece) : Prop :=
  ∀ point ∈ unitBox dim, Inside family.prototypes region point → (piece.evaluate point : ℚ) ≤ other.evaluate point

/-- A piece is at most one piece on its region and at least another one on its region, up to the tolerance. -/
def Connects (family : PieceFamily ℚ) (dim : Nat) (piece other between : Piece) : Prop :=
  family.AtMost dim piece.region between piece ∧ family.AtMost dim other.region other between

/-- On the region of a piece every piece stays on one side of it. -/
def Uncrossed (family : PieceFamily ℚ) (dim : Nat) : Prop :=
  ∀ piece ∈ family.pieces, ∀ other ∈ family.pieces,
    family.Below dim piece.region other piece ∨ family.Below dim piece.region piece other

theorem Below.atMost (h : family.Below dim region piece other) (htolerance : 0 ≤ family.tolerance) :
    family.AtMost dim region piece other :=
  fun point hbox hinside => (h point hbox hinside).trans (le_add_of_nonneg_right htolerance)

theorem Below.connects (htolerance : 0 ≤ family.tolerance) (hpiece : family.Below dim piece.region between piece)
    (hother : family.Below dim other.region other between) : family.Connects dim piece other between :=
  ⟨hpiece.atMost htolerance, hother.atMost htolerance⟩

/-- A point of one of the two regions tells that a piece does not connect them. -/
theorem not_connects_of_mem {point : List ℚ} (hbox : point ∈ unitBox dim)
    (h : (Inside family.prototypes piece.region point ∧
        piece.evaluate point + family.tolerance < between.evaluate point) ∨
      (Inside family.prototypes other.region point ∧
        between.evaluate point + family.tolerance < other.evaluate point)) :
    ¬ family.Connects dim piece other between := by
  rintro ⟨hbelow, habove⟩
  rcases h with ⟨hinside, hlt⟩ | ⟨hinside, hlt⟩
  · exact absurd (hbelow point hbox hinside) (not_le.mpr hlt)
  · exact absurd (habove point hbox hinside) (not_le.mpr hlt)

/-! ### The check -/

/-- A table without violations is handed on, and otherwise the first violation is reported: two different pieces
without a piece that connects them. -/
theorem checkLatticeProperty_cases (hmaximizes : family.oracle.Maximizes dim) (hformed : family.WellFormed dim)
    (htolerance : 0 ≤ family.tolerance) {table : DominationTable} (htable : family.dominationTable = .ok table) :
    (family.checkLatticeProperty = .ok table ∧ ∀ piece ∈ family.pieces, ∀ other ∈ family.pieces,
      ∃ between ∈ family.pieces, family.Connects dim piece other between) ∨
    ∃ i j piece other, i ≠ j ∧ family.pieces[i]? = some piece ∧ family.pieces[j]? = some other ∧
      family.checkLatticeProperty = .error (.latticeViolation i j) ∧
      ∀ between ∈ family.pieces, ¬ family.Connects dim piece other between := by
  have hsize := size_dominationTable htable
  cases hviolations : table.violations with
  | nil =>
      have hcheck : family.checkLatticeProperty = .ok table :=
        bind_eq_ok.mpr ⟨table, htable, by rw [hviolations]; rfl⟩
      refine Or.inl ⟨hcheck, fun piece hpiece other hother => ?_⟩
      obtain ⟨i, hi⟩ := List.mem_iff_getElem?.mp hpiece
      obtain ⟨j, hj⟩ := List.mem_iff_getElem?.mp hother
      obtain ⟨witness, between, hbetween, hbelow, habove⟩ := exists_between hmaximizes hformed htolerance hcheck hi
        (List.getElem?_eq_some_iff.mp hj).1
      refine ⟨between, List.mem_of_getElem? hbetween, hbelow, ?_⟩
      rcases habove with rfl | habove
      · cases hbetween.symm.trans hj
        exact .refl htolerance dim _ _
      · exact (isAbove_iff hmaximizes hformed htolerance htable hj hbetween).mp habove
  | cons violation violations =>
      obtain ⟨i, j⟩ := violation
      have hcheck : family.checkLatticeProperty = .error (.latticeViolation i j) :=
        bind_eq_error.mpr (Or.inr ⟨table, htable, by rw [hviolations]; rfl⟩)
      have hmem : (i, j) ∈ table.violations := hviolations ▸ List.mem_cons_self
      obtain ⟨i, hi, hmem⟩ := List.mem_flatMap.mp hmem
      obtain ⟨j, hj, heq⟩ := List.mem_map.mp hmem
      cases heq
      obtain ⟨hj, hnone⟩ := List.mem_filter.mp hj
      obtain ⟨hne, hnone⟩ := Bool.and_eq_true_iff.mp hnone
      have hwithin : i < family.pieces.length ∧ j < family.pieces.length :=
        hsize ▸ ⟨List.mem_range.mp hi, List.mem_range.mp hj⟩
      refine Or.inr ⟨i, j, _, _, bne_iff_ne.mp hne, List.getElem?_eq_getElem hwithin.1,
        List.getElem?_eq_getElem hwithin.2, hcheck, fun between hbetween hconnects => ?_⟩
      obtain ⟨k, hk⟩ := List.mem_iff_getElem?.mp hbetween
      have hfound := List.find?_eq_none.mp (Option.isNone_iff_eq_none.mp hnone) k
        (List.mem_range.mpr (hsize ▸ (List.getElem?_eq_some_iff.mp hk).1))
      rw [(isBelow_iff hmaximizes hformed htolerance htable (List.getElem?_eq_getElem hwithin.1) hk).mpr hconnects.1,
        (isAbove_iff hmaximizes hformed htolerance htable (List.getElem?_eq_getElem hwithin.2) hk).mpr hconnects.2]
        at hfound
      exact hfound rfl

/-- The check passes if and only if every two pieces are connected. -/
theorem checkLatticeProperty_ok_iff (hmaximizes : family.oracle.Maximizes dim) (hformed : family.WellFormed dim)
    (htolerance : 0 ≤ family.tolerance) {table : DominationTable} (htable : family.dominationTable = .ok table) :
    (∃ table, family.checkLatticeProperty = .ok table) ↔ ∀ piece ∈ family.pieces, ∀ other ∈ family.pieces,
      ∃ between ∈ family.pieces, family.Connects dim piece other between := by
  rcases checkLatticeProperty_cases hmaximizes hformed htolerance htable with
    ⟨hok, hconnected⟩ | ⟨i, j, piece, other, -, hpiece, hother, hfault, hnone⟩
  · exact iff_of_true ⟨table, hok⟩ hconnected
  · refine iff_of_false ?_ fun hconnected => ?_
    · rintro ⟨_, hok⟩
      cases hfault.symm.trans hok
    obtain ⟨between, hbetween, hconnects⟩ :=
      hconnected piece (List.mem_of_getElem? hpiece) other (List.mem_of_getElem? hother)
    exact hnone between hbetween hconnects

/-! ### Uncrossed pieces -/

section Uncrossed

variable {near far : List ℚ} {first second : Piece}

theorem evaluate_middle (piece : Piece) (h : near.length = far.length) :
    (piece.evaluate (segment near far (1 / 2)) : ℚ) = (piece.evaluate near + piece.evaluate far) / 2 := by
  rw [Piece.evaluate, Affine.evaluate_segment _ h, ← Piece.evaluate, ← Piece.evaluate]
  ring

/-- A piece that is at most another at a point is so on the whole region. -/
def Decides (family : PieceFamily ℚ) (dim : Nat) (region : List Boundary) (point : List ℚ) (piece other : Piece) :
    Prop :=
  (piece.evaluate point : ℚ) ≤ other.evaluate point → family.Below dim region piece other

/-- What is decided at a point stays so at the middle of the way to another point of the region. -/
theorem Decides.middle (hordered : family.Below dim region first second ∨ family.Below dim region second first)
    (hnear : near ∈ unitBox dim ∧ Inside family.prototypes region near)
    (hfar : far ∈ unitBox dim ∧ Inside family.prototypes region far)
    (h : family.Decides dim region near first second) :
    family.Decides dim region (segment near far (1 / 2)) first second := by
  intro hle
  rcases hordered with hbelow | habove
  · exact hbelow
  · rw [evaluate_middle _ (hnear.1.1.trans hfar.1.1.symm), evaluate_middle _ (hnear.1.1.trans hfar.1.1.symm)] at hle
    have hend := habove far hfar.1 hfar.2
    exact h (by linarith)

/-- From every point of a region there is another one such that the order of two pieces is decided between them. -/
theorem exists_decides_middle (hordered : family.Below dim region first second ∨ family.Below dim region second first)
    (hnear : near ∈ unitBox dim ∧ Inside family.prototypes region near) :
    ∃ far, (far ∈ unitBox dim ∧ Inside family.prototypes region far) ∧
      family.Decides dim region (segment near far (1 / 2)) first second ∧
      family.Decides dim region (segment near far (1 / 2)) second first := by
  wlog hbelow : family.Below dim region first second generalizing first second
  · obtain ⟨far, hfar, hdecided, hdecided'⟩ := this hordered.symm (hordered.resolve_left hbelow)
    exact ⟨far, hfar, hdecided', hdecided⟩
  by_cases habove : family.Below dim region second first
  · exact ⟨near, hnear, fun _ => hbelow, fun _ => habove⟩
  · simp only [Below, not_forall, not_le] at habove
    obtain ⟨far, hbox, hinside, hlt⟩ := habove
    refine ⟨far, ⟨hbox, hinside⟩, fun _ => hbelow, fun hle => ?_⟩
    have hstart := hbelow near hnear.1 hnear.2
    rw [evaluate_middle _ (hnear.1.1.trans hbox.1.symm), evaluate_middle _ (hnear.1.1.trans hbox.1.symm)] at hle
    linarith

/-- A region on which pieces stay on one side of another piece has a point that decides all comparisons with it. -/
theorem exists_deciding (hshape : Shaped dim family.prototypes) (others : List Piece)
    (hordered : ∀ other ∈ others, family.Below dim region other piece ∨ family.Below dim region piece other)
    (hpoint : ∃ point, point ∈ unitBox dim ∧ Inside family.prototypes region point) :
    ∃ point, (point ∈ unitBox dim ∧ Inside family.prototypes region point) ∧ ∀ other ∈ others,
      family.Decides dim region point other piece ∧ family.Decides dim region point piece other := by
  induction others with
  | nil =>
      obtain ⟨point, hpoint⟩ := hpoint
      exact ⟨point, hpoint, fun _ hmem => absurd hmem List.not_mem_nil⟩
  | cons other others ih =>
      obtain ⟨hother, hothers⟩ := List.forall_mem_cons.mp hordered
      obtain ⟨near, hnear, hdecided⟩ := ih hothers
      obtain ⟨far, hfar, hfirst⟩ := exists_decides_middle hother hnear
      refine ⟨segment near far (1 / 2), ⟨?_, ?_⟩, List.forall_mem_cons.mpr ⟨hfirst, fun later hlater => ?_⟩⟩
      · exact segment_mem hnear.1 hfar.1 (by norm_num) (by norm_num)
      · exact inside_segment hshape (hnear.1.1.trans hfar.1.1.symm) hnear.2 hfar.2 (by norm_num) (by norm_num)
      · exact ⟨(hdecided later hlater).1.middle (hothers later hlater) hnear hfar,
          (hdecided later hlater).2.middle (hothers later hlater).symm hnear hfar⟩

end Uncrossed

/-- A piece without a point is connected to every other, and every other to it. -/
theorem exists_connects_of_empty (htolerance : 0 ≤ family.tolerance) (hpiece : piece ∈ family.pieces)
    (hother : other ∈ family.pieces)
    (hempty : (¬ ∃ point, point ∈ unitBox dim ∧ Inside family.prototypes piece.region point) ∨
      ¬ ∃ point, point ∈ unitBox dim ∧ Inside family.prototypes other.region point) :
    ∃ between ∈ family.pieces, family.Connects dim piece other between := by
  rcases hempty with hempty | hempty
  · exact ⟨other, hother, fun point hbox hinside => absurd ⟨point, hbox, hinside⟩ hempty, .refl htolerance dim _ _⟩
  · exact ⟨piece, hpiece, .refl htolerance dim _ _, fun point hbox hinside => absurd ⟨point, hbox, hinside⟩ hempty⟩

/-- Pieces that do not cross are connected. -/
theorem Patches.exists_connects_of_uncrossed (h : family.Patches dim value) (huncrossed : family.Uncrossed dim)
    (htolerance : 0 ≤ family.tolerance) (hpiece : piece ∈ family.pieces) (hother : other ∈ family.pieces) :
    ∃ between ∈ family.pieces, family.Connects dim piece other between := by
  by_cases hempty : (¬ ∃ point, point ∈ unitBox dim ∧ Inside family.prototypes piece.region point) ∨
      ¬ ∃ point, point ∈ unitBox dim ∧ Inside family.prototypes other.region point
  · exact exists_connects_of_empty htolerance hpiece hother hempty
  · rw [not_or, not_not, not_not] at hempty
    obtain ⟨near, hnear, hdecided⟩ :=
      exists_deciding h.wellFormed.shaped family.pieces (huncrossed piece hpiece) hempty.1
    obtain ⟨far, hfar, hdecided'⟩ :=
      exists_deciding h.wellFormed.shaped family.pieces (huncrossed other hother) hempty.2
    obtain ⟨between, hbetween, hbelow, habove⟩ := h.exists_rising hnear.1 hfar.1
    rw [← h.agrees piece hpiece near hnear.1 hnear.2] at hbelow
    rw [← h.agrees other hother far hfar.1 hfar.2] at habove
    exact ⟨between, hbetween, Below.connects htolerance ((hdecided between hbetween).1 hbelow)
      ((hdecided' between hbetween).2 habove)⟩

end PieceFamily

end ReluLogic
