import ReluLogic.Proofs.Lattice.Line
import ReluLogic.Proofs.Translation.EndToEnd

/-!
The lattice check on the pieces of a network. A decomposition has no other failure for the check to report than two
pieces that no piece connects. It has none over one input, and none where no piece crosses another on the other's
region. Beyond that it may: `Network.crossed`, over two inputs with two hidden layers and weights in quarters, is
refused.
-/

namespace ReluLogic

/-- The pieces of a slot are patches of the slot's output, cut off to the unit interval. -/
theorem Decomposition.Faithful.patches {network : Network ℚ} {decomposition : Decomposition ℚ}
    (h : decomposition.Faithful network) {family : PieceFamily ℚ} {place output : Nat}
    (hprototypes : family.prototypes = decomposition.prototypes)
    (houtput : decomposition.outputs[place]? = some output)
    (hpieces : decomposition.pieces[place]? = some family.pieces)
    (hforms : ∀ piece ∈ family.pieces, ∀ form, piece.Converts family.prototypes form →
      form.Convertible ∧ form.IsDecimal) :
    family.Patches network.inputDim fun point => clamp ((Network.forward network.layers point).getD output 0) := by
  have hmem : family.pieces ∈ decomposition.pieces := List.mem_of_getElem? hpieces
  rw [hprototypes] at hforms
  refine ⟨⟨?_, fun piece hpiece => (h.wellFormed.pieces _ hmem piece hpiece).1⟩, fun point hbox => ?_,
    fun piece hpiece point hbox hinside => ?_⟩
  · rw [hprototypes]
    exact h.wellFormed.shaped
  · rw [hprototypes]
    exact h.covers point hbox (fun _ hnone => absurd hnone List.not_mem_nil) _ hmem
  · rw [hprototypes] at hinside
    exact (h.reproduces place output _ houtput hpieces piece hpiece).evaluate_eq (hforms piece hpiece) hbox hinside

namespace Network

variable {network : Network ℚ} {oracle : Oracle ℚ} {outputs : List Nat} {decomposition : Decomposition ℚ}

theorem faithful_of_run (hexact : oracle.Exact network.inputDim)
    (hrun : network.decompose oracle outputs = .ok decomposition ∨
      ∃ threads, network.decomposeParallel oracle outputs threads = .ok decomposition) :
    decomposition.Faithful network := by
  rcases hrun with hrun | ⟨threads, hrun⟩
  · obtain ⟨requested, hrequested, hwhole⟩ := bind_eq_ok.mp hrun
    exact faithful_of_decomposeOutputs hexact (lt_of_requestedOutputs hrequested) hwhole
  · exact (faithful_of_decomposeParallel hexact hrun).2

theorem consistent_of_run (hexact : oracle.Exact network.inputDim)
    (hrun : network.decompose oracle outputs = .ok decomposition ∨
      ∃ threads, network.decomposeParallel oracle outputs threads = .ok decomposition) :
    decomposition.Consistent oracle network.inputDim := by
  have hbox := isFeasible_box hexact
  have hwhole : ∀ {requested}, network.requestedOutputs outputs = .ok requested →
      network.decomposeOutputs oracle requested = .ok decomposition →
        decomposition.Consistent oracle network.inputDim := by
    intro requested hrequested hsearch
    obtain ⟨found, hfound, -, hconsistent⟩ :=
      exists_decomposeOutputs_consistent hexact.coherent hbox (lt_of_requestedOutputs hrequested)
    rwa [Except.ok.inj (hsearch.symm.trans hfound)]
  rcases hrun with hrun | ⟨threads, hrun⟩
  · obtain ⟨requested, hrequested, hsearch⟩ := bind_eq_ok.mp hrun
    exact hwhole hrequested hsearch
  · obtain ⟨requested, hrequested, hsearch | ⟨first, layer, rest, hlayers, hparts⟩⟩ := decomposeParallel_cases hrun
    · exact hwhole hrequested hsearch
    · obtain ⟨found, hfound, -, hconsistent⟩ := exists_partitioned_consistent hexact.coherent hbox
        (lt_of_requestedOutputs hrequested) hlayers threads
      rwa [Except.ok.inj (hparts.symm.trans hfound)]

/-- The pieces of an output can be compared with one another. -/
theorem exists_table_of_consistent {family : PieceFamily ℚ} (hexact : family.oracle.Exact network.inputDim)
    (hconsistent : decomposition.Consistent family.oracle network.inputDim)
    (hprototypes : family.prototypes = decomposition.prototypes) (hpieces : family.pieces ∈ decomposition.pieces) :
    family.WellFormed network.inputDim ∧ ∃ table, family.dominationTable = .ok table := by
  have hformed : family.WellFormed network.inputDim :=
    ⟨hprototypes ▸ hconsistent.prototypes, hconsistent.pieces _ hpieces⟩
  exact ⟨hformed, PieceFamily.exists_dominationTable_eq hexact.coherent hformed.shaped hformed.pieces
    (hprototypes ▸ hconsistent.feasible _ hpieces)⟩

/-- With an exact oracle the check of an output's pieces, at any tolerance, hands on the table if every two of the
pieces are connected, and otherwise reports two that no piece connects; it fails for no other reason. Where the
conversion of the pieces' forms is exact it passes if the network has one input, or if on the region of each piece
every other one stays on one side of it. -/
theorem lattice_check_decides (network : Network ℚ) {family : PieceFamily ℚ}
    (hexact : family.oracle.Exact network.inputDim) (htolerance : 0 ≤ family.tolerance) {outputs : List Nat}
    {decomposition : Decomposition ℚ}
    (hrun : network.decompose family.oracle outputs = .ok decomposition ∨
      ∃ threads, network.decomposeParallel family.oracle outputs threads = .ok decomposition)
    (hprototypes : family.prototypes = decomposition.prototypes) (hpieces : family.pieces ∈ decomposition.pieces) :
    ((∃ table, family.checkLatticeProperty = .ok table) ↔ ∀ piece ∈ family.pieces, ∀ other ∈ family.pieces,
      ∃ between ∈ family.pieces, family.Connects network.inputDim piece other between) ∧
    (∀ fault, family.checkLatticeProperty = .error fault → ∃ i j piece other, i ≠ j ∧
      family.pieces[i]? = some piece ∧ family.pieces[j]? = some other ∧ fault = .latticeViolation i j ∧
        ∀ between ∈ family.pieces, ¬ family.Connects network.inputDim piece other between) ∧
    ((∀ piece ∈ family.pieces, ∀ form, piece.Converts family.prototypes form → form.Convertible ∧ form.IsDecimal) →
      network.inputDim = 1 ∨ family.Uncrossed network.inputDim →
        ∃ table, family.checkLatticeProperty = .ok table) := by
  have hfaithful := faithful_of_run hexact hrun
  have hconsistent := consistent_of_run hexact hrun
  obtain ⟨hformed, table, htable⟩ := exists_table_of_consistent hexact hconsistent hprototypes hpieces
  have hiff := PieceFamily.checkLatticeProperty_ok_iff hexact.maximizes hformed htolerance htable
  refine ⟨hiff, fun fault hfault => ?_, fun hforms hshape => hiff.mpr fun piece hpiece other hother => ?_⟩
  · rcases PieceFamily.checkLatticeProperty_cases hexact.maximizes hformed htolerance htable with
      ⟨hok, -⟩ | ⟨i, j, piece, other, hne, hpiece, hother, hviolation, hnone⟩
    · rw [hok] at hfault
      cases hfault
    · exact ⟨i, j, piece, other, hne, hpiece, hother, Except.error.inj (hfault.symm.trans hviolation), hnone⟩
  · obtain ⟨place, hplace⟩ := List.mem_iff_getElem?.mp hpieces
    have hwithin : place < decomposition.outputs.length :=
      hconsistent.slots ▸ (List.getElem?_eq_some_iff.mp hplace).1
    have hpatches := hfaithful.patches hprototypes (List.getElem?_eq_getElem hwithin) hplace hforms
    rcases hshape with hone | huncrossed
    · rw [hone] at hpatches ⊢
      exact hpatches.exists_connects_of_line htolerance hpiece hother
    · exact hpatches.exists_connects_of_uncrossed huncrossed htolerance hpiece hother

/-- Over one input the pieces of the shifted gate pass. -/
theorem lattice_check_decides_shifted : ∃ decomposition pieces table,
    shifted.decompose Interval.oracle [0] = .ok decomposition ∧ decomposition.pieces = [pieces] ∧
      (⟨decomposition.prototypes, pieces, Interval.oracle, 0⟩ : PieceFamily ℚ).checkLatticeProperty = .ok table := by
  have hrun : shifted.decompose Interval.oracle [0] = .ok
      ⟨[⟨[-1 / 2, 1]⟩, ⟨[-1 / 2, 1]⟩, ⟨[-3 / 2, 1]⟩, ⟨[0, 0]⟩, ⟨[-1, 0]⟩], [0],
        [[.zero 1 [.geq 0, .leq 1], ⟨[⟨-1, 2⟩, .one], [.geq 0, .geq 1, .leq 2]⟩, .zero 1 [.leq 0, .leq 3],
          .zero 1 [.leq 0, .geq 3, .leq 4]]]⟩ := by
    decide +kernel
  have hforms : ∀ form ∈ [(⟨[-1 / 2, 1]⟩ : Affine ℚ), ⟨[-1 / 2, 1]⟩, ⟨[-3 / 2, 1]⟩, ⟨[0, 0]⟩, ⟨[-1, 0]⟩],
      form.Convertible ∧ form.IsDecimal := by
    decide +kernel
  obtain ⟨-, -, hpasses⟩ := @lattice_check_decides shifted ⟨_, _, Interval.oracle, 0⟩ Interval.oracle_exact le_rfl
    [0] _ (Or.inl hrun) rfl List.mem_cons_self
  obtain ⟨table, htable⟩ := hpasses (fun _ _ form hconverts => hforms form hconverts.mem_prototypes) (Or.inl rfl)
  exact ⟨_, _, table, hrun, rfl, htable⟩

/-! ### A network that is refused -/

/-- A network with five pieces, of which the first is the only one that exceeds the last near a corner of the box, but
is below it in the middle. -/
def crossed : Network ℚ :=
  ⟨[[⟨-1, [3 / 4, 1]⟩, ⟨-3 / 4, [1, -3 / 4]⟩], [⟨3 / 4, [1 / 2, -1 / 2]⟩, ⟨0, [1 / 2, -3 / 4]⟩],
    [⟨1, [-1 / 2, 1]⟩, ⟨0, [0, 0]⟩]], rfl⟩

/-- The pieces of the first output of `crossed`, to be compared with the standard tolerance. -/
def crossedFamily : PieceFamily ℚ where
  prototypes :=
    [⟨[-1, 3 / 4, 1]⟩, ⟨[-3 / 4, 1, -3 / 4]⟩, ⟨[5 / 8, -1 / 8, 7 / 8]⟩, ⟨[1 / 16, -3 / 8, 17 / 16]⟩,
      ⟨[3 / 4, -5 / 16, 5 / 8]⟩, ⟨[0, 0, 0]⟩, ⟨[-1 / 4, -5 / 16, 5 / 8]⟩, ⟨[11 / 16, 1 / 16, -7 / 16]⟩,
      ⟨[0, 0, 0]⟩, ⟨[-5 / 16, 1 / 16, -7 / 16]⟩, ⟨[1 / 4, 3 / 8, 1 / 2]⟩, ⟨[-1 / 2, 3 / 8, 1 / 2]⟩,
      ⟨[3 / 8, 3 / 16, 1 / 4]⟩, ⟨[0, 0, 0]⟩, ⟨[-5 / 8, 3 / 16, 1 / 4]⟩, ⟨[9 / 8, -1 / 2, 3 / 8]⟩,
      ⟨[9 / 16, -3 / 4, 9 / 16]⟩, ⟨[7 / 16, 1 / 4, -3 / 16]⟩, ⟨[0, 0, 0]⟩, ⟨[-9 / 16, 1 / 4, -3 / 16]⟩,
      ⟨[3 / 4, 0, 0]⟩, ⟨[0, 0, 0]⟩, ⟨[5 / 8, 0, 0]⟩, ⟨[0, 0, 0]⟩, ⟨[-3 / 8, 0, 0]⟩]
  pieces :=
    [⟨[⟨3, 4⟩, ⟨-5, 16⟩, ⟨5, 8⟩], [.geq 0, .geq 1, .geq 3, .geq 4, .leq 6]⟩,
      ⟨[⟨11, 16⟩, ⟨1, 16⟩, ⟨-7, 16⟩], [.geq 0, .geq 1, .leq 3, .geq 7, .leq 9]⟩,
      ⟨[⟨3, 8⟩, ⟨3, 16⟩, ⟨1, 4⟩], [.geq 0, .leq 1, .geq 12, .leq 14]⟩,
      ⟨[⟨7, 16⟩, ⟨1, 4⟩, ⟨-3, 16⟩], [.leq 0, .geq 1, .geq 17, .leq 19]⟩,
      ⟨[⟨5, 8⟩, .zero, .zero], [.leq 0, .leq 1, .geq 22, .leq 24]⟩]
  oracle := Simplex.exhaustive 2
  tolerance := Config.standard.latticeTolerance

theorem decompose_crossed : crossed.decompose crossedFamily.oracle [0] =
    .ok ⟨crossedFamily.prototypes, [0], [crossedFamily.pieces]⟩ := by
  decide +kernel

/-- No piece connects the first to the last: on the region of the first the last is larger at a corner, and each of the
others is smaller than the last somewhere on the last one's region. -/
theorem not_connects_crossed {first last : Piece} (hfirst : crossedFamily.pieces[0]? = some first)
    (hlast : crossedFamily.pieces[4]? = some last) :
    ∀ between ∈ crossedFamily.pieces, ¬ crossedFamily.Connects 2 first last between := by
  cases hfirst
  cases hlast
  have hbox : ∀ {x y : ℚ}, 0 ≤ x ∧ x ≤ 1 ∧ 0 ≤ y ∧ y ≤ 1 → [x, y] ∈ unitBox 2 := fun ⟨hx, hx', hy⟩ =>
    ⟨rfl, List.forall_mem_cons.mpr ⟨⟨hx, hx'⟩, List.forall_mem_singleton.mpr hy⟩⟩
  have hinside : ∀ {piece : Piece} {point : List ℚ}, piece.contains crossedFamily.prototypes point 0 = true →
      Inside crossedFamily.prototypes piece.region point := Piece.contains_iff_inside.mp
  refine List.forall_mem_cons.mpr ⟨?_, List.forall_mem_cons.mpr ⟨?_, List.forall_mem_cons.mpr ⟨?_,
    List.forall_mem_cons.mpr ⟨?_, List.forall_mem_singleton.mpr ?_⟩⟩⟩⟩
  · have hcorner : [3 / 4, 0] ∈ unitBox 2 := hbox (by decide +kernel)
    exact PieceFamily.not_connects_of_mem hcorner (Or.inr ⟨hinside (by decide +kernel), by decide +kernel⟩)
  · have hcorner : [0, 1] ∈ unitBox 2 := hbox (by decide +kernel)
    exact PieceFamily.not_connects_of_mem hcorner (Or.inr ⟨hinside (by decide +kernel), by decide +kernel⟩)
  · have hcorner : [0, 0] ∈ unitBox 2 := hbox (by decide +kernel)
    exact PieceFamily.not_connects_of_mem hcorner (Or.inr ⟨hinside (by decide +kernel), by decide +kernel⟩)
  · have hcorner : [0, 0] ∈ unitBox 2 := hbox (by decide +kernel)
    exact PieceFamily.not_connects_of_mem hcorner (Or.inr ⟨hinside (by decide +kernel), by decide +kernel⟩)
  · have hcorner : [1, 5 / 17] ∈ unitBox 2 := hbox (by decide +kernel)
    exact PieceFamily.not_connects_of_mem hcorner (Or.inl ⟨hinside (by decide +kernel), by decide +kernel⟩)

/-- The pieces of `crossed` are refused, though the oracle is exact and all forms are converted exactly. -/
theorem crossed_refused :
    crossedFamily.oracle.Exact crossed.inputDim ∧ 0 ≤ crossedFamily.tolerance ∧
      (∀ form ∈ crossedFamily.prototypes, form.Convertible ∧ form.IsDecimal) ∧
      crossed.decompose crossedFamily.oracle [0] = .ok ⟨crossedFamily.prototypes, [0], [crossedFamily.pieces]⟩ ∧
      ∃ i j, crossedFamily.checkLatticeProperty = .error (.latticeViolation i j) := by
  have hexact : crossedFamily.oracle.Exact crossed.inputDim := Simplex.exhaustive_exact 2
  have htolerance : 0 ≤ crossedFamily.tolerance := by decide +kernel
  refine ⟨hexact, htolerance, by decide +kernel, decompose_crossed, ?_⟩
  obtain ⟨hformed, table, htable⟩ := exists_table_of_consistent hexact
    (consistent_of_run hexact (Or.inl decompose_crossed)) rfl List.mem_cons_self
  rcases PieceFamily.checkLatticeProperty_cases hexact.maximizes hformed htolerance htable with
    ⟨-, hconnected⟩ | ⟨i, j, -, -, -, -, -, hviolation, -⟩
  · obtain ⟨between, hbetween, hconnects⟩ := hconnected _ (List.mem_of_getElem? (i := 0) rfl) _
      (List.mem_of_getElem? (i := 4) rfl)
    exact absurd hconnects (not_connects_crossed rfl rfl between hbetween)
  · exact ⟨i, j, hviolation⟩

end Network

end ReluLogic
