import ReluLogic.Lattice.Domination
import ReluLogic.Proofs.Decomposition.Threads

/-!
The search reaches no inconsistent state. A region that the search goes on with, and the region of every piece that
it keeps, has been found non-empty by the oracle. Further prototypes do not change what the region stands for, and
neither does putting a partition behind others, so this is still the oracle's answer about the final prototypes. With
a coherent oracle the only failure is therefore an input box that the oracle finds empty, and the pieces can be
compared with one another.
-/

namespace ReluLogic

namespace Search

variable {α : Type} [Scalar α] {search : Search α} {partition merged next : Partition α} {base : List (Affine α)}

/-- The oracle finds the region of every piece non-empty. -/
def Confirms (search : Search α) (partition : Partition α) : Prop :=
  ∀ slot ∈ partition.pieces, ∀ piece ∈ slot, search.isFeasible partition.prototypes piece.region = .ok true

theorem confirms_start (prototypes : List (Affine α)) (slots : Nat) :
    search.Confirms (.start prototypes slots) := by
  intro slot hslot piece hpiece
  rw [List.eq_of_mem_replicate hslot] at hpiece
  exact absurd hpiece List.not_mem_nil

/-- Further prototypes leave the answers about the pieces as they are. -/
theorem Confirms.extend {dim slots : Nat} {extended : List (Affine α)} (h : search.Confirms partition)
    (hformed : partition.WellFormed dim slots) (hextended : partition.prototypes <+: extended) :
    search.Confirms ⟨extended, partition.pieces⟩ := by
  intro slot hslot piece hpiece
  have hrefers := (hformed.pieces slot hslot piece hpiece).2
  rw [isFeasible_eq_of_extends hrefers hextended]
  exact h slot hslot piece hpiece

/-! ### One search -/

/-- The pieces of a leaf are kept because the oracle finds their regions non-empty. -/
theorem Ready.confirms_leaf {forms final : List (Affine α)} {region : List Boundary} {state : Partition α}
    {slots : List (List Piece)} (hready : search.Ready [] forms region state)
    (hemit : search.emit forms state.prototypes.length region search.outputs (state.prototypes ++ forms) =
      .ok (final, slots)) (h : search.Confirms state) :
    search.Confirms ⟨final, appendSlots state.pieces slots⟩ := by
  intro slot hslot piece hpiece
  obtain ⟨place, hplace⟩ := List.mem_iff_getElem?.mp hslot
  obtain ⟨held, added, output, hheld, houtput, rfl, known, hknown, hafter, hkeep⟩ := hready.leaf_slot hemit hplace
  rcases List.mem_append.mp hpiece with hpiece | hpiece
  · exact h.extend hready.wellFormed (prefix_of_emit hemit) held (List.mem_of_getElem? hheld) piece hpiece
  · obtain ⟨hcandidate, hfeasible⟩ := (mem_of_keepFeasible _ hkeep).1 hpiece
    -- the candidates refer to the prototypes that were known when the oracle was asked
    have hplaced := hready.placed (List.mem_of_getElem? houtput) hknown List.prefix_rfl
    have hregion := hready.refers.mono ((List.prefix_append _ forms).trans
      (hknown.trans (List.prefix_append _ [(forms.getD output (.zero search.dim)).minusOne])))
    have hrefers := (hplaced.candidates hready.shaped hregion piece hcandidate).2
    rw [isFeasible_eq_of_extends hrefers hafter, hfeasible]

/-- A search that starts with confirmed pieces ends with confirmed pieces. -/
theorem shapedRules_confirms (search : Search α) :
    search.ShapedRules
      (fun _ _ _ state result => search.Confirms state → search.Confirms result)
      (fun _ _ _ _ _ state result => search.Confirms state → search.Confirms result) where
  leaf hready hemit h := hready.confirms_leaf hemit h
  layer hready _ hresolved h := hresolved (h.extend hready.wellFormed (List.prefix_append _ _))
  done _ hexplored := hexplored
  fixed _ _ hresolved := hresolved
  cut _ _ _ _ _ hgeq hleq h := hleq.keeps (hgeq.keeps h)

/-! ### Partitions -/

theorem Pending.confirms_partitionFrom {layer : Layer α} {rest : List (Layer α)} {gates : List (Gate α)}
    {values : List (Affine α)} {region : List Boundary} {signs : List Sign} {found : Partition α}
    (hpending : search.Pending layer rest gates values region (.start base search.outputs.length))
    (h : search.partitionFrom layer rest base gates values region signs = .ok found) :
    search.Confirms found := by
  rcases partitionFrom_eq_ok.mp h with ⟨-, hbranch⟩ | ⟨-, rfl⟩
  · exact (search.shapedRules_confirms.branch (hpending.assigned signs) hbranch).2 (confirms_start base _)
  · exact confirms_start base _

theorem Confirms.absorb {dim slots : Nat} (h : search.Confirms merged) (h' : search.Confirms next)
    (hmerged : merged.Over dim slots base) (hnext : next.Over dim slots base) :
    search.Confirms (merged.absorb base.length next) := by
  intro slot hslot piece hpiece
  obtain ⟨place, hplace⟩ := List.mem_iff_getElem?.mp hslot
  obtain ⟨held, own, hheld, hown, rfl⟩ :=
    mem_absorb hmerged.wellFormed.length_eq hnext.wellFormed.length_eq hplace
  rcases List.mem_append.mp hpiece with hpiece | hpiece
  · exact h.extend hmerged.wellFormed (List.prefix_append _ _) held (List.mem_of_getElem? hheld) piece hpiece
  · obtain ⟨original, horiginal, rfl⟩ := List.mem_map.mp hpiece
    have hlength := hmerged.starts.length_le
    have hoffset : merged.prototypes.length = base.length + (merged.prototypes.length - base.length) := by omega
    have hfound := h' own (List.mem_of_getElem? hown) original horiginal
    exact isFeasible_behind hmerged.starts hoffset hnext.starts hfound

theorem Confirms.foldl_absorb {dim slots : Nat} {parts : List (Partition α)} (h : search.Confirms merged)
    (hmerged : merged.Over dim slots base)
    (hparts : ∀ part ∈ parts, part.Over dim slots base ∧ search.Confirms part) :
    search.Confirms (parts.foldl (Partition.absorb base.length) merged) := by
  have hboth : (parts.foldl (Partition.absorb base.length) merged).Over dim slots base ∧
      search.Confirms (parts.foldl (Partition.absorb base.length) merged) := by
    apply List.foldlRecOn parts _ (motive := fun held => held.Over dim slots base ∧ search.Confirms held)
    · exact ⟨hmerged, h⟩
    · rintro held ⟨hover, hheld⟩ part hpart
      obtain ⟨hown, hpart⟩ := hparts part hpart
      exact ⟨hover.absorb hown, hheld.absorb hpart hover hown⟩
  exact hboth.2

end Search

/-- A decomposition over `dim` inputs: all prototypes and pieces have that many inputs, there is a list of pieces
for each output, the regions refer to the prototypes, and the oracle finds each of them non-empty. -/
structure Decomposition.Consistent {α : Type} [Scalar α] (oracle : Oracle α) (dim : Nat)
    (decomposition : Decomposition α) : Prop where
  prototypes : ∀ form ∈ decomposition.prototypes, form.coefficients.length = dim + 1
  slots : decomposition.pieces.length = decomposition.outputs.length
  pieces : ∀ slot ∈ decomposition.pieces, ∀ piece ∈ slot, piece.coefficients.length = dim + 1
  boundaries : ∀ slot ∈ decomposition.pieces, ∀ piece ∈ slot, ∀ boundary ∈ piece.region,
    boundary.index < decomposition.prototypes.length
  feasible : ∀ slot ∈ decomposition.pieces, ∀ piece ∈ slot, ∃ constraints,
    regionConstraints decomposition.prototypes piece.region = .ok constraints ∧
      oracle.isFeasible dim constraints = .ok true

theorem Search.Confirms.consistent {α : Type} [Scalar α] {search : Search α} {decomposition : Decomposition α}
    (h : search.Confirms decomposition.partition)
    (hformed : decomposition.partition.WellFormed search.dim decomposition.outputs.length) :
    decomposition.Consistent search.oracle search.dim where
  prototypes := hformed.shaped
  slots := hformed.length_eq
  pieces slot hslot piece hpiece := (hformed.pieces slot hslot piece hpiece).1
  boundaries slot hslot piece hpiece := (hformed.pieces slot hslot piece hpiece).2
  feasible slot hslot piece hpiece := bind_eq_ok.mp (h slot hslot piece hpiece)

/-! ### Comparisons -/

namespace PieceFamily

variable {α : Type} [Scalar α] {family : PieceFamily α} {dim : Nat}

/-- On a region that is found non-empty any two pieces can be compared. -/
theorem exists_isAtMost_eq (hcoherent : family.oracle.Coherent dim) (hshape : Shaped dim family.prototypes)
    {region : List Boundary} {constraints : List (Constraint α)} {minuend subtrahend : Piece} (index : Nat)
    (hconstraints : regionConstraints family.prototypes region = .ok constraints)
    (hfeasible : family.oracle.isFeasible dim constraints = .ok true)
    (hminuend : minuend.coefficients.length = dim + 1) (hsubtrahend : subtrahend.coefficients.length = dim + 1) :
    ∃ found, family.isAtMost index region minuend subtrahend = .ok found := by
  have hdifference : (minuend.form.difference subtrahend.form : Affine α).coefficients.length = dim + 1 := by
    simp [Affine.difference, Piece.form, hminuend, hsubtrahend]
  obtain ⟨value, hvalue⟩ := hcoherent.exists_optimal hdifference (hshape.uniform hconstraints) hfeasible
  have hgreatest : family.maxDifference index region minuend subtrahend = .ok value :=
    bind_eq_ok.mpr ⟨constraints, hconstraints, bind_eq_ok.mpr ⟨_, hvalue, rfl⟩⟩
  exact ⟨_, bind_eq_ok.mpr ⟨value, hgreatest, rfl⟩⟩

/-- Pieces whose regions are found non-empty have a table of comparisons. -/
theorem exists_dominationTable_eq (hcoherent : family.oracle.Coherent dim)
    (hshape : Shaped dim family.prototypes)
    (hlength : ∀ piece ∈ family.pieces, piece.coefficients.length = dim + 1)
    (hfeasible : ∀ piece ∈ family.pieces, ∃ constraints,
      regionConstraints family.prototypes piece.region = .ok constraints ∧
        family.oracle.isFeasible dim constraints = .ok true) :
    ∃ table, family.dominationTable = .ok table := by
  have hmem : ∀ {piece : Piece} {i : Nat}, (piece, i) ∈ family.pieces.zipIdx → piece ∈ family.pieces :=
    fun hpair => List.fst_mem_of_mem_zipIdx hpair
  have hrows : ∃ rows, (family.pieces.zipIdx.mapM fun entry => family.rows entry.1 entry.2) = .ok rows := by
    apply exists_mapM_eq_ok
    rintro ⟨piece, i⟩ hpiece
    obtain ⟨constraints, hconstraints, hfound⟩ := hfeasible piece (hmem hpiece)
    have hrow : ∀ compare : Piece → Except Error Bool,
        (∀ other ∈ family.pieces, ∃ found, compare other = .ok found) →
          ∃ row, (family.pieces.zipIdx.mapM fun entry => if i = entry.2 then pure true else compare entry.1) =
            .ok row := by
      intro compare hcompare
      apply exists_mapM_eq_ok
      rintro ⟨other, k⟩ hother
      by_cases hself : i = k
      · exact ⟨true, if_pos hself⟩
      · obtain ⟨found, hok⟩ := hcompare other (hmem hother)
        exact ⟨found, (if_neg hself).trans hok⟩
    have hown := hlength piece (hmem hpiece)
    obtain ⟨above, habove⟩ := hrow (family.isAtMost i piece.region piece) fun other hother =>
      exists_isAtMost_eq hcoherent hshape i hconstraints hfound hown (hlength other hother)
    obtain ⟨below, hbelow⟩ := hrow (family.isAtMost i piece.region · piece) fun other hother =>
      exists_isAtMost_eq hcoherent hshape i hconstraints hfound (hlength other hother) hown
    exact ⟨(above, below), bind_eq_ok.mpr ⟨above, habove, bind_eq_ok.mpr ⟨below, hbelow, rfl⟩⟩⟩
  obtain ⟨rows, hrows⟩ := hrows
  exact ⟨_, bind_eq_ok.mpr ⟨rows, hrows, rfl⟩⟩

end PieceFamily

/-! ### Networks -/

theorem Search.ensureBox_of_empty {α : Type} [Scalar α] (search : Search α)
    (h : search.oracle.isFeasible search.dim [] = .ok false) :
    search.ensureBox = .error (.infeasibleSearch .emptyBox) := by
  rw [ensureBox, h]
  rfl

namespace Network

variable {α : Type} [Scalar α] {network : Network α} {oracle : Oracle α} {outputs requested : List Nat}

theorem exists_decomposeOutputs_consistent (hcoherent : oracle.Coherent network.inputDim)
    (hbox : oracle.isFeasible network.inputDim [] = .ok true)
    (houtputs : ∀ output ∈ outputs, output < network.outputDim) :
    ∃ decomposition, network.decomposeOutputs oracle outputs = .ok decomposition ∧
      decomposition.outputs = outputs ∧ decomposition.Consistent oracle network.inputDim := by
  obtain ⟨decomposition, hrun⟩ := network.exists_decomposeOutputs_eq hcoherent hbox houtputs
  obtain ⟨rfl, hdescend⟩ := decomposeOutputs_eq_ok hrun
  obtain ⟨hformed, hconfirms⟩ :=
    (network.search oracle decomposition.outputs).shapedRules_confirms.descend (network.ready oracle houtputs)
      hdescend
  exact ⟨decomposition, hrun, rfl, (hconfirms (Search.confirms_start [] _)).consistent hformed⟩

theorem exists_partitioned_consistent (hcoherent : oracle.Coherent network.inputDim)
    (hbox : oracle.isFeasible network.inputDim [] = .ok true)
    (houtputs : ∀ output ∈ outputs, output < network.outputDim) {first layer : Layer α} {rest : List (Layer α)}
    (hlayers : network.layers = first :: layer :: rest) (threads : Nat) :
    ∃ decomposition,
      (network.search oracle outputs).partitioned threads layer rest network.firstForms = .ok decomposition ∧
        decomposition.outputs = outputs ∧ decomposition.Consistent oracle network.inputDim := by
  have hsearch : (network.search oracle outputs).oracle.Coherent (network.search oracle outputs).dim := hcoherent
  have hready := network.ready oracle houtputs
  rw [hlayers, List.tail_cons] at hready
  obtain ⟨gates, hgates⟩ := hready.exists_classify_eq hsearch (bind_eq_ok.mpr ⟨[], rfl, hbox⟩)
  have hpending := pending_firstForms houtputs hlayers hgates
  set count := min threads.log2 (gates.countP Gate.isCut)
  obtain ⟨parts, hparts⟩ := exists_mapM_eq_ok fun number (_ : number ∈ List.range (2 ^ count)) =>
    hpending.exists_partitionFrom_eq hsearch (partitionSigns count number)
  have hall : ∀ part ∈ parts, part.Over network.inputDim outputs.length network.firstForms ∧
      (network.search oracle outputs).Confirms part := by
    intro part hpart
    obtain ⟨number, -, hrun⟩ := exists_of_mem_mapM hparts hpart
    exact ⟨hpending.partitionFrom_over hrun, hpending.confirms_partitionFrom hrun⟩
  have hstart := Partition.Over.start network.shaped_firstForms outputs.length
  have hformed := (hstart.foldl_absorb fun part hpart => (hall part hpart).1).wellFormed
  have hconfirms := (Search.confirms_start network.firstForms outputs.length).foldl_absorb hstart hall
  set decomposition := mergePartitions network.firstForms parts outputs
  have hconfirmed : (network.search oracle outputs).Confirms decomposition.partition := hconfirms
  refine ⟨decomposition, ?_, rfl, hconfirmed.consistent hformed⟩
  exact partitioned_eq_ok.mpr ⟨gates, parts, hgates, hparts, rfl⟩

/-- A decomposition with any number of threads is one search, or a search in partitions behind the same question about
the box. -/
theorem run_eq_or {run : Except Error (Decomposition α)}
    (hrequested : network.requestedOutputs outputs = .ok requested)
    (hrun : run = network.decompose oracle outputs ∨
      ∃ threads, run = network.decomposeParallel oracle outputs threads) :
    run = network.decomposeOutputs oracle requested ∨
      ∃ threads first layer rest, network.layers = first :: layer :: rest ∧
        run = (network.search oracle requested).ensureBox >>=
          fun _ => (network.search oracle requested).partitioned threads layer rest network.firstForms := by
  rcases hrun with rfl | ⟨threads, rfl⟩
  · left
    rw [decompose, hrequested]
    rfl
  · exact (decomposeParallel_eq_or hrequested threads).imp_right fun hpartitioned => ⟨threads, hpartitioned⟩

/-- With an oracle that answers coherently a decomposition fails for one reason only, an input box that the oracle
finds empty. Otherwise all regions refer to the final prototypes and are found non-empty in them, whatever the
number of threads, and any of the pieces can be compared with one another. -/
theorem decompose_consistent (network : Network α) {oracle : Oracle α}
    (hcoherent : oracle.Coherent network.inputDim) {outputs : List Nat}
    (houtputs : ∀ output ∈ outputs, output < network.outputDim) {run : Except Error (Decomposition α)}
    (hrun : run = network.decompose oracle outputs ∨
      ∃ threads, run = network.decomposeParallel oracle outputs threads) :
    (oracle.isFeasible network.inputDim [] = .ok false ∧ run = .error (.infeasibleSearch .emptyBox)) ∨
      (oracle.isFeasible network.inputDim [] = .ok true ∧ ∃ decomposition, run = .ok decomposition ∧
        network.requestedOutputs outputs = .ok decomposition.outputs ∧
        decomposition.Consistent oracle network.inputDim ∧
        ∀ (pieces : List Piece) (tolerance : α), (∀ piece ∈ pieces, ∃ slot ∈ decomposition.pieces, piece ∈ slot) →
          ∃ table, (⟨decomposition.prototypes, pieces, oracle, tolerance⟩ : PieceFamily α).dominationTable =
            .ok table) := by
  have hrequested := requestedOutputs_eq_ok.mpr ⟨houtputs, rfl⟩
  set requested := if outputs.isEmpty then List.range network.outputDim else outputs
  have hlt := lt_of_requestedOutputs hrequested
  have hcases := run_eq_or hrequested hrun
  have huniform : Uniform network.inputDim ([] : List (Constraint α)) := fun _ hmem => absurd hmem List.not_mem_nil
  obtain ⟨found, hbox⟩ := hcoherent.exists_isFeasible_eq huniform
  cases found with
  | false =>
      refine Or.inl ⟨hbox, ?_⟩
      have hensure := (network.search oracle requested).ensureBox_of_empty hbox
      rcases hcases with rfl | ⟨threads, first, layer, rest, -, rfl⟩
      · rw [decomposeOutputs, hensure]
        rfl
      · rw [hensure]
        rfl
  | true =>
      refine Or.inr ⟨hbox, ?_⟩
      have hfound : ∃ decomposition, run = .ok decomposition ∧ decomposition.outputs = requested ∧
          decomposition.Consistent oracle network.inputDim := by
        rcases hcases with rfl | ⟨threads, first, layer, rest, hlayers, rfl⟩
        · exact exists_decomposeOutputs_consistent hcoherent hbox hlt
        · obtain ⟨decomposition, hok, hrest⟩ :=
            exists_partitioned_consistent hcoherent hbox hlt hlayers threads
          exact ⟨decomposition, bind_eq_ok.mpr ⟨(), bind_eq_ok.mpr ⟨true, hbox, rfl⟩, hok⟩, hrest⟩
      obtain ⟨decomposition, hok, houtputs, hconsistent⟩ := hfound
      rw [← houtputs] at hrequested
      refine ⟨decomposition, hok, hrequested, hconsistent, fun pieces tolerance hpieces => ?_⟩
      refine PieceFamily.exists_dominationTable_eq hcoherent hconsistent.prototypes ?_ ?_
      · intro piece hpiece
        obtain ⟨slot, hslot, hmem⟩ := hpieces piece hpiece
        exact hconsistent.pieces slot hslot piece hmem
      · intro piece hpiece
        obtain ⟨slot, hslot, hmem⟩ := hpieces piece hpiece
        exact hconsistent.feasible slot hslot piece hmem

/-- One of the four partitions that four threads search is empty; what the others give is consistent. -/
theorem decompose_consistent_ramp :
    ∃ decomposition, ramp.decomposeParallel Interval.oracle [0] 4 = .ok decomposition ∧
      decomposition.Consistent Interval.oracle 1 ∧
      ∀ slot ∈ decomposition.pieces, ∃ table,
        (⟨decomposition.prototypes, slot, Interval.oracle, 0⟩ : PieceFamily ℚ).dominationTable = .ok table := by
  have hexact : Interval.oracle.Exact ramp.inputDim := Interval.oracle_exact
  have houtputs : ∀ output ∈ [0], output < ramp.outputDim := by decide
  rcases decompose_consistent ramp hexact.coherent houtputs (Or.inr ⟨4, rfl⟩) with
    ⟨hempty, -⟩ | ⟨-, decomposition, hrun, -, hconsistent, htable⟩
  · rw [isFeasible_box hexact] at hempty
    cases hempty
  · refine ⟨decomposition, hrun, hconsistent, fun slot hslot => htable slot 0 fun piece hpiece => ?_⟩
    exact ⟨slot, hslot, hpiece⟩

/-- An oracle that finds everything empty answers coherently, and is told so at the box. -/
example : shifted.decompose Oracle.empty [0] = .error (.infeasibleSearch .emptyBox) := by
  decide +kernel

end Network

end ReluLogic
