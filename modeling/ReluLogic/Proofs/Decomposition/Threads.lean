import ReluLogic.Proofs.Decomposition.Partitioned
import ReluLogic.Proofs.Decomposition.Rebasing

/-!
The search with threads finds what one search finds. The numbers of partitions list the signs in the order in which
a search tries them, a search under signs whose region is empty finds nothing, and one under signs whose region is
not continues a search from what the partitions before it have put together. So the partitions merged one after the
other are one search, for numbers of any kind and an oracle whose answers only have to agree on which regions are
empty.
-/

namespace ReluLogic

/-- The lists of a number of signs, in the order in which a search tries them. -/
def Sign.lists : Nat → List (List Sign)
  | 0 => [[]]
  | count + 1 => (lists count).map (.geq :: ·) ++ (lists count).map (.leq :: ·)

/-- Partitions are numbered in the order in which a search tries their signs. -/
theorem map_partitionSigns (count : Nat) :
    (List.range (2 ^ count)).map (partitionSigns count) = Sign.lists count := by
  induction count with
  | zero => rfl
  | succ count ih =>
      rw [pow_succ, mul_two, List.range_add, List.map_append, List.map_map, Sign.lists, ← ih, List.map_map,
        List.map_map]
      refine congrArg₂ (· ++ ·) (List.map_congr_left fun number hnumber => ?_)
        (List.map_congr_left fun number hnumber => ?_)
      · exact partitionSigns_of_lt (List.mem_range.mp hnumber)
      · exact partitionSigns_add (List.mem_range.mp hnumber)

namespace Search

variable {α : Type} [Scalar α] {search : Search α} {layer : Layer α} {rest : List (Layer α)}
  {base values : List (Affine α)} {gate : Gate α} {gates : List (Gate α)} {region : List Boundary}
  {sign : Sign} {signs : List Sign}

/-! ### One partition -/

/-- A region that is found empty is found empty under further boundaries. -/
theorem isFeasible_append (hpersistent : search.oracle.Persistent search.dim) (hshape : Shaped search.dim base)
    {more : List Boundary} (hmore : Refers base (region ++ more)) (hempty : search.isFeasible base region = .ok false) :
    search.isFeasible base (region ++ more) = .ok false := by
  obtain ⟨constraints, hconstraints, hempty⟩ := bind_eq_ok.mp hempty
  obtain ⟨others, hothers⟩ := (refers_append.mp hmore).2.exists_constraints
  have hall : regionConstraints base (region ++ more) = .ok (constraints ++ others) :=
    mapM_eq_ok.mpr (List.rel_append (mapM_eq_ok.mp hconstraints) (mapM_eq_ok.mp hothers))
  exact bind_eq_ok.mpr ⟨_, hall, hpersistent.isFeasible_append (hshape.uniform hall) hempty⟩

theorem Pending.exists_partitionFrom_eq (hcoherent : search.oracle.Coherent search.dim)
    (hpending : search.Pending layer rest gates values region (.start base search.outputs.length))
    (signs : List Sign) :
    ∃ found, search.partitionFrom layer rest base gates values region signs = .ok found := by
  have hassigned := hpending.assigned signs
  obtain ⟨feasible, hfeasible⟩ := exists_isFeasible_eq hcoherent hassigned.wellFormed.shaped hassigned.refers
  cases feasible with
  | true =>
      obtain ⟨found, hfound⟩ :=
        hassigned.exists_branch_eq hcoherent (Ready.exists_descend_eq hcoherent rest) _ hfeasible
      exact ⟨found, partitionFrom_eq_ok.mpr (Or.inl ⟨hfeasible, hfound⟩)⟩
  | false => exact ⟨_, partitionFrom_eq_ok.mpr (Or.inr ⟨hfeasible, rfl⟩)⟩

/-- Behind a region that is found empty every partition is empty. -/
theorem Pending.partitionFrom_of_empty (hpersistent : search.oracle.Persistent search.dim)
    (hpending : search.Pending layer rest gates values region (.start base search.outputs.length))
    (hempty : search.isFeasible base region = .ok false) (signs : List Sign) :
    search.partitionFrom layer rest base gates values region signs = .ok (.start base search.outputs.length) := by
  have hassigned := hpending.assigned signs
  exact partitionFrom_eq_ok.mpr
    (Or.inr ⟨isFeasible_append hpersistent hassigned.wellFormed.shaped hassigned.refers hempty, rfl⟩)

/-- A gate that keeps its sign is resolved in a partition as in a search. -/
theorem partitionFrom_of_sign? (h : gate.position.sign? = some sign) :
    search.partitionFrom layer rest base (gate :: gates) values region =
      search.partitionFrom layer rest base gates (values ++ [gate.output sign]) region := by
  funext signs
  unfold partitionFrom
  cases signs with
  | nil => simp only [Assignment.ofSigns_nil, List.append_nil, branch_of_sign? h]
  | cons first signs =>
      simp only [Assignment.ofSigns_of_sign? h, List.append_assoc, List.singleton_append]

/-- A cut gate takes the first sign of the partition. -/
theorem partitionFrom_of_cutting (h : gate.position = .cutting) (sign : Sign) :
    search.partitionFrom layer rest base (gate :: gates) values region ∘ (sign :: ·) =
      search.partitionFrom layer rest base gates (values ++ [gate.output sign]) (region ++ [gate.boundary sign]) := by
  funext signs
  unfold partitionFrom
  simp only [Function.comp_apply, Assignment.ofSigns_of_cutting h, List.append_assoc, List.singleton_append]

/-! ### All partitions -/

/-- Without signs there is one partition, and it is the search itself. -/
theorem Pending.branch_eq_foldl_zero {merged : Partition α} {parts : List (Partition α)}
    (hpending : search.Pending layer rest gates values region (.start base search.outputs.length))
    (hfeasible : search.isFeasible base region = .ok true)
    (hmerged : merged.Over search.dim search.outputs.length base)
    (hparts : (Sign.lists 0).mapM (search.partitionFrom layer rest base gates values region) = .ok parts) :
    search.branch (search.below layer rest) gates values region merged =
      .ok (parts.foldl (Partition.absorb base.length) merged) := by
  obtain ⟨part, others, hpart, hothers, rfl⟩ := List.forall₂_cons_left_iff.mp (mapM_eq_ok.mp hparts)
  obtain rfl := List.forall₂_nil_left_iff.mp hothers
  have hrun := partitionFrom_eq_ok.mp hpart
  simp only [Assignment.ofSigns_nil, List.append_nil, hfeasible] at hrun
  rcases hrun with ⟨-, hbranch⟩ | ⟨hempty, -⟩
  · exact hpending.branch_behind hmerged hbranch
  · cases hempty

/-- One way of a cut gate is all partitions that take it. -/
theorem Pending.half_eq_foldl (hcoherent : search.oracle.Coherent search.dim)
    (hpersistent : search.oracle.Persistent search.dim) {merged : Partition α} {parts : List (Partition α)}
    (hmerged : merged.Over search.dim search.outputs.length base) {order : List (List Sign)}
    (hpending : search.Pending layer rest (gate :: gates) values region (.start base search.outputs.length))
    (hparts : order.mapM (search.partitionFrom layer rest base gates (values ++ [gate.output sign])
      (region ++ [gate.boundary sign])) = .ok parts)
    (hbranch : search.isFeasible base (region ++ [gate.boundary sign]) = .ok true →
      search.branch (search.below layer rest) gates (values ++ [gate.output sign])
        (region ++ [gate.boundary sign]) merged = .ok (parts.foldl (Partition.absorb base.length) merged)) :
    search.Half (fun values region state result =>
      search.branch (search.below layer rest) gates values region state = .ok result) gate values region sign
      merged (parts.foldl (Partition.absorb base.length) merged) := by
  have hcut := hpending.cut sign
  have hsame : search.isFeasible merged.prototypes (region ++ [gate.boundary sign]) =
      search.isFeasible base (region ++ [gate.boundary sign]) :=
    isFeasible_eq_of_extends hcut.refers hmerged.starts
  obtain ⟨found, hfound⟩ := exists_isFeasible_eq hcoherent hcut.wellFormed.shaped hcut.refers
  cases found with
  | true => exact Or.inl ⟨hsame.trans hfound, hbranch hfound⟩
  | false =>
      -- every partition on this side is empty, and putting an empty one behind changes nothing
      have hempty : ∀ part ∈ parts, part = .start base search.outputs.length := by
        intro part hpart
        obtain ⟨signs, -, hrun⟩ := exists_of_mem_mapM hparts hpart
        rw [hcut.partitionFrom_of_empty hpersistent hfound signs] at hrun
        exact (Except.ok.inj hrun).symm
      have hstill : parts.foldl (Partition.absorb base.length) merged = merged := by
        refine List.foldlRecOn parts _ (motive := fun held => held = merged) rfl fun held hheld part hpart => ?_
        rw [hheld, hempty part hpart, Partition.absorb_start hmerged.wellFormed.length_eq]
      exact Or.inr ⟨hsame.trans hfound, hstill⟩

/-- The partitions of all signs for the first cut gates, merged in their order, are one search. -/
theorem branch_eq_foldl (hcoherent : search.oracle.Coherent search.dim)
    (hpersistent : search.oracle.Persistent search.dim) (gates : List (Gate α)) :
    ∀ {count : Nat} {values region} {merged : Partition α} {parts : List (Partition α)},
      search.Pending layer rest gates values region (.start base search.outputs.length) →
        search.isFeasible base region = .ok true → merged.Over search.dim search.outputs.length base →
          count ≤ gates.countP Gate.isCut →
            (Sign.lists count).mapM (search.partitionFrom layer rest base gates values region) = .ok parts →
              search.branch (search.below layer rest) gates values region merged =
                .ok (parts.foldl (Partition.absorb base.length) merged) := by
  -- along the gates; a gate that keeps its sign uses up none, a cut gate the first of every list
  induction gates with
  | nil =>
      intro count values region merged parts hpending hfeasible hmerged hcount hparts
      obtain rfl : count = 0 := Nat.le_zero.mp hcount
      exact hpending.branch_eq_foldl_zero hfeasible hmerged hparts
  | cons gate gates ih =>
      intro count values region merged parts hpending hfeasible hmerged hcount hparts
      cases hposition : gate.position.sign? with
      | some sign =>
          rw [List.countP_cons_of_neg (by simp [Gate.isCut_eq_isNone, hposition])] at hcount
          rw [partitionFrom_of_sign? hposition] at hparts
          rw [branch_of_sign? hposition]
          exact ih (hpending.fixed sign) hfeasible hmerged hcount hparts
      | none =>
          have hcut := Position.sign?_eq_none_iff.mp hposition
          cases count with
          | zero => exact hpending.branch_eq_foldl_zero hfeasible hmerged hparts
          | succ count =>
              rw [List.countP_cons_of_pos (by simp [Gate.isCut_eq_isNone, hposition]),
                Nat.add_le_add_iff_right] at hcount
              rw [Sign.lists, List.mapM_append, List.mapM_map, List.mapM_map, partitionFrom_of_cutting hcut,
                partitionFrom_of_cutting hcut] at hparts
              obtain ⟨opened, hopened, hparts⟩ := bind_eq_ok.mp hparts
              obtain ⟨closed, hclosed, hparts⟩ := bind_eq_ok.mp hparts
              cases hparts
              have hmiddle : (opened.foldl (Partition.absorb base.length) merged).Over search.dim
                  search.outputs.length base := by
                apply hmerged.foldl_absorb
                intro part hpart
                obtain ⟨signs, -, hrun⟩ := exists_of_mem_mapM hopened hpart
                exact (hpending.cut .geq).partitionFrom_over hrun
              rw [List.foldl_append, branch_of_cutting hcut]
              refine ⟨opened.foldl (Partition.absorb base.length) merged, ?_, ?_⟩
              · exact hpending.half_eq_foldl hcoherent hpersistent hmerged hopened fun hfound =>
                  ih (hpending.cut .geq) hfound hmerged hcount hopened
              · exact hpending.half_eq_foldl hcoherent hpersistent hmiddle hclosed fun hfound =>
                  ih (hpending.cut .leq) hfound hmiddle hcount hclosed

end Search

namespace Network

variable {α : Type} [Scalar α] {network : Network α} {oracle : Oracle α} {outputs : List Nat}

/-- A network of several layers is searched in partitions as in one go. -/
theorem exists_partitioned_eq (hcoherent : oracle.Coherent network.inputDim)
    (hpersistent : oracle.Persistent network.inputDim)
    (hbox : oracle.isFeasible network.inputDim [] = .ok true)
    (houtputs : ∀ output ∈ outputs, output < network.outputDim) {first layer : Layer α} {rest : List (Layer α)}
    (hlayers : network.layers = first :: layer :: rest) (threads : Nat) :
    ∃ decomposition, network.decomposeOutputs oracle outputs = .ok decomposition ∧
      (network.search oracle outputs).partitioned threads layer rest network.firstForms = .ok decomposition := by
  have hcoherent : (network.search oracle outputs).oracle.Coherent (network.search oracle outputs).dim := hcoherent
  have hpersistent : (network.search oracle outputs).oracle.Persistent (network.search oracle outputs).dim :=
    hpersistent
  have hready := network.ready oracle houtputs
  have hfeasible : ∀ prototypes, (network.search oracle outputs).isFeasible prototypes [] = .ok true :=
    fun _ => bind_eq_ok.mpr ⟨[], rfl, hbox⟩
  obtain ⟨gates, hgates⟩ := hready.exists_classify_eq hcoherent (hfeasible _)
  have hgates : (network.search oracle outputs).classify network.firstForms network.firstForms [] 0 = .ok gates :=
    hgates
  have hpending := pending_firstForms houtputs hlayers hgates
  set count := min threads.log2 (gates.countP Gate.isCut) with hcount
  obtain ⟨parts, hparts⟩ : ∃ parts, (Sign.lists count).mapM ((network.search oracle outputs).partitionFrom layer
      rest network.firstForms gates [] []) = .ok parts :=
    exists_mapM_eq_ok fun signs _ => hpending.exists_partitionFrom_eq hcoherent signs
  have hbranch := Search.branch_eq_foldl hcoherent hpersistent gates hpending (hfeasible _)
    (.start network.shaped_firstForms outputs.length) (min_le_right _ _) hparts
  refine ⟨mergePartitions network.firstForms parts outputs, ?_, ?_⟩
  · refine bind_eq_ok.mpr ⟨(), bind_eq_ok.mpr ⟨true, hbox, rfl⟩, bind_eq_ok.mpr ⟨_, ?_, rfl⟩⟩
    rw [hlayers, List.tail_cons]
    exact bind_eq_ok.mpr ⟨gates, hgates, hbranch⟩
  · refine partitioned_eq_ok.mpr ⟨gates, parts, hgates, ?_, rfl⟩
    rw [← map_partitionSigns, List.mapM_map] at hparts
    exact hparts

/-- With an oracle that always answers, that calls a region empty or not whatever it is asked about it, and that
calls no part of an empty region non-empty, a network is decomposed with any number of threads into the same
prototypes and pieces, in the same order, as without. -/
theorem decomposeParallel_eq_decompose (network : Network α) {oracle : Oracle α}
    (hcoherent : oracle.Coherent network.inputDim) (hpersistent : oracle.Persistent network.inputDim)
    (hbox : oracle.isFeasible network.inputDim [] = .ok true) {outputs : List Nat}
    (houtputs : ∀ output ∈ outputs, output < network.outputDim) (threads : Nat) :
    ∃ decomposition, network.decompose oracle outputs = .ok decomposition ∧
      network.decomposeParallel oracle outputs threads = .ok decomposition := by
  have hrequested := requestedOutputs_eq_ok.mpr ⟨houtputs, rfl⟩
  set requested := if outputs.isEmpty then List.range network.outputDim else outputs
  have hlt := lt_of_requestedOutputs hrequested
  have hwhole := network.exists_decomposeOutputs_eq hcoherent hbox hlt
  have hrun : ∃ decomposition, network.decomposeOutputs oracle requested = .ok decomposition ∧
      network.decomposeParallel oracle outputs threads = .ok decomposition := by
    obtain ⟨first, layers, hlayers, -⟩ := network.exists_layers_eq
    unfold decomposeParallel
    simp only [hrequested, hlayers]
    cases layers with
    | nil =>
        obtain ⟨decomposition, hdecomposition⟩ := hwhole
        exact ⟨decomposition, hdecomposition, hdecomposition⟩
    | cons layer rest =>
        by_cases hthreads : threads < 2
        · obtain ⟨decomposition, hdecomposition⟩ := hwhole
          refine ⟨decomposition, hdecomposition, bind_eq_ok.mpr ⟨requested, rfl, ?_⟩⟩
          show (if threads < 2 then _ else _) = _
          rw [if_pos hthreads, hdecomposition]
        · obtain ⟨decomposition, hdecomposition, hpartitioned⟩ :=
            exists_partitioned_eq hcoherent hpersistent hbox hlt hlayers threads
          refine ⟨decomposition, hdecomposition, bind_eq_ok.mpr ⟨requested, rfl, ?_⟩⟩
          show (if threads < 2 then _ else _) = _
          rw [if_neg hthreads]
          exact bind_eq_ok.mpr ⟨(), bind_eq_ok.mpr ⟨true, hbox, rfl⟩, hpartitioned⟩
  obtain ⟨decomposition, hdecomposition, hparallel⟩ := hrun
  exact ⟨decomposition, bind_eq_ok.mpr ⟨requested, hrequested, hdecomposition⟩, hparallel⟩

/-- The network `x ↦ max (x - 1/4) 0 - max (x - 1/2) 0`, whose two gates leave three regions of the box. -/
def ramp : Network ℚ :=
  ⟨[[⟨-1 / 4, [1]⟩, ⟨-1 / 2, [1]⟩], [⟨0, [1, -1]⟩]], rfl⟩

/-- Of the four partitions that four threads search one is empty, and the others make up the same search. -/
theorem decomposeParallel_eq_decompose_ramp :
    ∃ decomposition, ramp.decompose Interval.oracle [0] = .ok decomposition ∧
      ramp.decomposeParallel Interval.oracle [0] 4 = .ok decomposition :=
  have hexact : Interval.oracle.Exact ramp.inputDim := Interval.oracle_exact
  decomposeParallel_eq_decompose ramp hexact.coherent hexact.persistent (isFeasible_box hexact) (by decide) 4

end Network

end ReluLogic
