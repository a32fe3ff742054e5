import ReluLogic.Proofs.Decomposition.Merging
import ReluLogic.Proofs.Decomposition.Sequential

/-!
The search in partitions. Fixed signs resolve gates as a search does, some assignment of signs holds at any given
point, and every assignment has a partition of its own; so the merged partitions cover the box and agree with
the outputs of the network, like the result of one search.
-/

namespace ReluLogic

/-! ### Numbers and signs -/

/-- The signs of a number in the first half of twice as many keep the first gate open. -/
theorem partitionSigns_of_lt {count number : Nat} (h : number < 2 ^ count) :
    partitionSigns (count + 1) number = .geq :: partitionSigns count number := by
  unfold partitionSigns
  rw [List.range_succ_eq_map, List.map_cons, List.map_map]
  refine congrArg₂ List.cons ?_ (List.map_congr_left fun place _ => ?_)
  · simp [Nat.testBit_lt_two_pow h]
  · simp [Nat.sub_sub, Nat.add_comm 1 place]

/-- The signs of a number in the second half close it. -/
theorem partitionSigns_add {count number : Nat} (h : number < 2 ^ count) :
    partitionSigns (count + 1) (2 ^ count + number) = .leq :: partitionSigns count number := by
  unfold partitionSigns
  rw [List.range_succ_eq_map, List.map_cons, List.map_map]
  refine congrArg₂ List.cons ?_ (List.map_congr_left fun place hplace => ?_)
  · simp [Nat.testBit_two_pow_add_eq, Nat.testBit_lt_two_pow h]
  · have hbelow : count + 1 - 1 - (place + 1) < count := by
      have := List.mem_range.mp hplace
      omega
    rw [Function.comp_apply, Nat.testBit_two_pow_add_gt hbelow]
    simp [Nat.sub_sub, Nat.add_comm 1 place]

/-- Every list of signs is that of some partition. -/
theorem exists_partitionSigns_eq (signs : List Sign) :
    ∃ number < 2 ^ signs.length, partitionSigns signs.length number = signs := by
  induction signs with
  | nil => exact ⟨0, Nat.one_pos, rfl⟩
  | cons sign signs ih =>
      obtain ⟨number, hnumber, hsigns⟩ := ih
      rw [List.length_cons]
      cases sign with
      | geq => exact ⟨number, by omega, by rw [partitionSigns_of_lt hnumber, hsigns]⟩
      | leq => exact ⟨2 ^ signs.length + number, by omega, by rw [partitionSigns_add hnumber, hsigns]⟩

namespace Assignment

variable {α : Type} [Scalar α] {gate : Gate α} {gates : List (Gate α)} {signs : List Sign} {sign : Sign}

theorem ofSigns_nil (gates : List (Gate α)) : ofSigns [] gates = ⟨[], [], gates⟩ := by
  cases gates <;> rfl

theorem ofSigns_of_sign? {own : Sign} (h : gate.position.sign? = some own) :
    ofSigns (sign :: signs) (gate :: gates) =
      { ofSigns (sign :: signs) gates with
        values := gate.output own :: (ofSigns (sign :: signs) gates).values } := by
  rcases hposition : gate.position <;> rw [hposition] at h <;> cases h <;> rw [ofSigns, hposition]

theorem ofSigns_of_cutting (h : gate.position = .cutting) :
    ofSigns (sign :: signs) (gate :: gates) =
      { ofSigns signs gates with
        values := gate.output sign :: (ofSigns signs gates).values
        region := gate.boundary sign :: (ofSigns signs gates).region } := by
  rw [ofSigns, h]

/-- What every way of resolving one gate keeps is kept by fixed signs. -/
theorem resolves (Holds : List (Gate α) → List (Affine α) → List Boundary → Prop)
    (hfixed : ∀ {gate gates values region sign}, gate.position.sign? = some sign →
      Holds (gate :: gates) values region → Holds gates (values ++ [gate.output sign]) region)
    (hcut : ∀ {gate gates values region} (sign : Sign), Holds (gate :: gates) values region →
      Holds gates (values ++ [gate.output sign]) (region ++ [gate.boundary sign])) (gates : List (Gate α)) :
    ∀ (signs : List Sign) {values region}, Holds gates values region →
      Holds (ofSigns signs gates).rest (values ++ (ofSigns signs gates).values)
        (region ++ (ofSigns signs gates).region) := by
  induction gates with
  | nil =>
      intro signs values region h
      cases signs <;> simpa only [ofSigns, List.append_nil] using h
  | cons gate gates ih =>
      intro signs values region h
      cases signs with
      | nil => simpa only [ofSigns_nil, List.append_nil] using h
      | cons sign signs =>
          cases hposition : gate.position.sign? with
          | some own =>
              rw [ofSigns_of_sign? hposition]
              simpa only [List.append_assoc, List.singleton_append] using ih (sign :: signs) (hfixed hposition h)
          | none =>
              have hcutting := Position.sign?_eq_none_iff.mp hposition
              rw [ofSigns_of_cutting hcutting]
              simpa only [List.append_assoc, List.singleton_append] using ih signs (hcut sign h)

/-- At any point some signs of a given number hold. -/
theorem exists_signs_inside {dim : Nat} {prototypes : List (Affine ℚ)} (point : List ℚ) (gates : List (Gate ℚ)) :
    ∀ count : Nat, (∀ gate ∈ gates, gate.form.coefficients.length = dim + 1 ∧
      prototypes[gate.index]? = some gate.form) →
        ∃ signs, signs.length = count ∧ Inside prototypes (ofSigns signs gates).region point := by
  induction gates with
  | nil =>
      intro count _
      refine ⟨List.replicate count .geq, List.length_replicate, ?_⟩
      cases count <;> exact fun _ hmem => absurd hmem List.not_mem_nil
  | cons gate gates ih =>
      intro count hknown
      obtain ⟨⟨hlength, hform⟩, hrest⟩ := List.forall_mem_cons.mp hknown
      cases count with
      | zero => exact ⟨[], rfl, fun _ hmem => absurd hmem List.not_mem_nil⟩
      | succ count =>
          cases hposition : gate.position.sign? with
          | some own =>
              obtain ⟨signs, hcount, hinside⟩ := ih (count + 1) hrest
              obtain ⟨sign, signs, rfl⟩ := List.exists_cons_of_length_eq_add_one hcount
              refine ⟨sign :: signs, hcount, ?_⟩
              rw [ofSigns_of_sign? hposition]
              exact hinside
          | none =>
              have hcutting := Position.sign?_eq_none_iff.mp hposition
              obtain ⟨signs, hcount, hinside⟩ := ih count hrest
              have hsign : ∃ sign : Sign, sign.admits (gate.form.evaluate point) 0 = true := by
                rcases le_total 0 (gate.form.evaluate point) with hzero | hzero
                · exact ⟨.geq, (Sign.admits_geq _).mpr hzero⟩
                · exact ⟨.leq, (Sign.admits_leq _).mpr hzero⟩
              obtain ⟨sign, hsign⟩ := hsign
              refine ⟨sign :: signs, congrArg (· + 1) hcount, ?_⟩
              rw [ofSigns_of_cutting hcutting]
              exact inside_cons.mpr ⟨(inside_singleton hform hlength sign).mpr hsign, hinside⟩

end Assignment

namespace Search

section Partition

variable {α : Type} [Scalar α] {search : Search α} {layer : Layer α} {rest : List (Layer α)}
  {base values : List (Affine α)} {gates : List (Gate α)} {region : List Boundary} {signs : List Sign}
  {found : Partition α}

/-- The search of a partition, behind gates resolved already to some values and a region. -/
def partitionFrom (search : Search α) (layer : Layer α) (rest : List (Layer α)) (base : List (Affine α))
    (gates : List (Gate α)) (values : List (Affine α)) (region : List Boundary) (signs : List Sign) :
    Except Error (Partition α) := do
  if ← search.isFeasible base (region ++ (Assignment.ofSigns signs gates).region) then
    search.branch (search.below layer rest) (Assignment.ofSigns signs gates).rest
      (values ++ (Assignment.ofSigns signs gates).values) (region ++ (Assignment.ofSigns signs gates).region)
      (.start base search.outputs.length)
  else
    pure (.start base search.outputs.length)

theorem partition_eq_partitionFrom :
    search.partition layer rest base gates signs = search.partitionFrom layer rest base gates [] [] signs :=
  rfl

/-- A partition is searched where its signs are found to leave some region, and empty otherwise. -/
theorem partitionFrom_eq_ok :
    search.partitionFrom layer rest base gates values region signs = .ok found ↔
      (search.isFeasible base (region ++ (Assignment.ofSigns signs gates).region) = .ok true ∧
        search.branch (search.below layer rest) (Assignment.ofSigns signs gates).rest
          (values ++ (Assignment.ofSigns signs gates).values)
          (region ++ (Assignment.ofSigns signs gates).region) (.start base search.outputs.length) = .ok found) ∨
      (search.isFeasible base (region ++ (Assignment.ofSigns signs gates).region) = .ok false ∧
        found = .start base search.outputs.length) :=
  half_eq_ok _

/-- Gates resolved by fixed signs leave a search in which the others can be resolved. -/
theorem Pending.assigned
    (h : search.Pending layer rest gates values region (.start base search.outputs.length)) (signs : List Sign) :
    search.Pending layer rest (Assignment.ofSigns signs gates).rest
      (values ++ (Assignment.ofSigns signs gates).values) (region ++ (Assignment.ofSigns signs gates).region)
      (.start base search.outputs.length) :=
  Assignment.resolves
    (fun gates values region => search.Pending layer rest gates values region (.start base search.outputs.length))
    (fun _ h => h.fixed _) (fun sign h => h.cut sign) gates signs h

/-- A partition starts with the prototypes that all partitions share. -/
theorem Pending.partitionFrom_over
    (hpending : search.Pending layer rest gates values region (.start base search.outputs.length))
    (h : search.partitionFrom layer rest base gates values region signs = .ok found) :
    found.Over search.dim search.outputs.length base := by
  rcases partitionFrom_eq_ok.mp h with ⟨-, hbranch⟩ | ⟨-, rfl⟩
  · obtain ⟨hextends, -⟩ := (shapedRules_true search).rules.branch hbranch
    obtain ⟨hformed, -⟩ := (shapedRules_true search).branch (hpending.assigned signs) hbranch
    exact ⟨hextends.prototypes, hformed⟩
  · exact .start hpending.wellFormed.shaped _

end Partition

variable {search : Search ℚ} {target : List ℚ → List ℚ} {layer : Layer ℚ} {rest : List (Layer ℚ)}
  {base : List (Affine ℚ)} {gates : List (Gate ℚ)} {signs : List Sign} {found : Partition ℚ}

/-- A partition covers the points at which its signs hold. -/
theorem Pending.partition_holds (hpermissive : search.oracle.Permissive search.dim)
    (hpending : search.Pending layer rest gates [] [] (.start base search.outputs.length))
    (h : search.partition layer rest base gates signs = .ok found) {point : List ℚ}
    (hbox : point ∈ unitBox search.dim) (hinside : Inside base (Assignment.ofSigns signs gates).region point) :
    found.Holds point := by
  rw [partition_eq_partitionFrom] at h
  rcases partitionFrom_eq_ok.mp h with ⟨-, hbranch⟩ | ⟨hempty, -⟩
  · exact ((shapedRules_covers hpermissive).branch (hpending.assigned signs) hbranch).2 point hbox hinside
  · exact absurd hinside (not_inside_of_isFeasible hpermissive hpending.wellFormed.shaped hempty hbox)

/-- A partition agrees with the outputs of the target that its search tracks. -/
theorem Pending.partition_part (hexact : search.oracle.Exact search.dim)
    (hpending : search.Pending layer rest gates [] [] (.start base search.outputs.length))
    (htracks : TracksGates search.dim target layer rest gates [] [] base)
    (h : search.partition layer rest base gates signs = .ok found) :
    found.Part search.dim search.outputs target base := by
  rw [partition_eq_partitionFrom] at h
  refine ⟨hpending.partitionFrom_over h, ?_⟩
  rcases partitionFrom_eq_ok.mp h with ⟨-, hbranch⟩ | ⟨-, rfl⟩
  · have hassigned := Assignment.resolves
      (fun gates values region =>
        search.Pending layer rest gates values region (.start base search.outputs.length) ∧
          TracksGates search.dim target layer rest gates values region base)
      (fun hsign h => ⟨h.1.fixed _, h.2.fixed hsign⟩) (fun sign h => ⟨h.1.cut sign, h.1.tracks_cut sign h.2⟩)
      gates signs ⟨hpending, htracks⟩
    obtain ⟨-, hreproduces⟩ := (shapedRules_reproduces hexact target).branch hassigned.1 hbranch
    exact hreproduces hassigned.2 (Network.reproduces_start base _)
  · exact Network.reproduces_start base _

end Search

namespace Network

section Cases

variable {α : Type} [Scalar α] {network : Network α} {oracle : Oracle α} {outputs : List Nat}
  {decomposition : Decomposition α}

/-- The search in partitions classifies the first layer, searches every partition, and merges what it found. -/
theorem partitioned_eq_ok {layer : Layer α} {rest : List (Layer α)} {base : List (Affine α)} {threads : Nat}
    {search : Search α} :
    search.partitioned threads layer rest base = .ok decomposition ↔
      ∃ gates found, search.classify base base [] 0 = .ok gates ∧
        (List.range (2 ^ min threads.log2 (gates.countP Gate.isCut))).mapM (fun number =>
          search.partition layer rest base gates
            (partitionSigns (min threads.log2 (gates.countP Gate.isCut)) number)) = .ok found ∧
        mergePartitions base found search.outputs = decomposition := by
  rw [Search.partitioned, bind_eq_ok]
  refine exists_congr fun gates => ?_
  rw [bind_eq_ok, Nat.one_shiftLeft]
  constructor
  · rintro ⟨hgates, found, hfound, hmerged⟩
    exact ⟨found, hgates, hfound, Except.ok.inj hmerged⟩
  · rintro ⟨found, hgates, hfound, rfl⟩
    exact ⟨hgates, found, hfound, rfl⟩

/-- A run with threads is one search, or a search in partitions of a network with several layers, behind the same
question about the box. -/
theorem decomposeParallel_eq_or {requested : List Nat}
    (hrequested : network.requestedOutputs outputs = .ok requested) (threads : Nat) :
    network.decomposeParallel oracle outputs threads = network.decomposeOutputs oracle requested ∨
      ∃ first layer rest, network.layers = first :: layer :: rest ∧
        network.decomposeParallel oracle outputs threads = (network.search oracle requested).ensureBox >>=
          fun _ => (network.search oracle requested).partitioned threads layer rest network.firstForms := by
  obtain ⟨first, layers, hlayers, -⟩ := network.exists_layers_eq
  unfold decomposeParallel
  simp only [hrequested, hlayers]
  cases layers with
  | nil => exact Or.inl rfl
  | cons layer rest =>
      by_cases hthreads : threads < 2
      · simp only [if_pos hthreads]
        exact Or.inl rfl
      · simp only [if_neg hthreads]
        exact Or.inr ⟨first, layer, rest, rfl, rfl⟩

theorem decomposeParallel_cases {threads : Nat}
    (h : network.decomposeParallel oracle outputs threads = .ok decomposition) :
    ∃ requested, network.requestedOutputs outputs = .ok requested ∧
      (network.decomposeOutputs oracle requested = .ok decomposition ∨
        ∃ first layer rest, network.layers = first :: layer :: rest ∧
          (network.search oracle requested).partitioned threads layer rest network.firstForms =
            .ok decomposition) := by
  obtain ⟨requested, hrequested, -⟩ := bind_eq_ok.mp h
  refine ⟨requested, hrequested, ?_⟩
  rcases decomposeParallel_eq_or hrequested threads with heq | ⟨first, layer, rest, hlayers, heq⟩
  · exact Or.inl (heq.symm.trans h)
  · obtain ⟨-, -, hrun⟩ := bind_eq_ok.mp (heq.symm.trans h)
    exact Or.inr ⟨first, layer, rest, hlayers, hrun⟩

/-- Behind the gates of the first layer a search is pending from the forms of that layer alone. -/
theorem pending_firstForms (houtputs : ∀ output ∈ outputs, output < network.outputDim)
    {first layer : Layer α} {rest : List (Layer α)} (hlayers : network.layers = first :: layer :: rest)
    {gates : List (Gate α)}
    (hgates : (network.search oracle outputs).classify network.firstForms network.firstForms [] 0 = .ok gates) :
    (network.search oracle outputs).Pending layer rest gates [] [] (.start network.firstForms outputs.length) := by
  have hready := network.ready oracle houtputs
  rw [hlayers, List.tail_cons] at hready
  exact hready.classified hgates

end Cases

variable {network : Network ℚ} {oracle : Oracle ℚ} {outputs : List Nat} {decomposition : Decomposition ℚ}
  {first layer : Layer ℚ} {rest : List (Layer ℚ)} {threads : Nat}

theorem complete_of_partitioned (hpermissive : oracle.Permissive network.inputDim)
    (houtputs : ∀ output ∈ outputs, output < network.outputDim)
    (hlayers : network.layers = first :: layer :: rest)
    (h : (network.search oracle outputs).partitioned threads layer rest network.firstForms = .ok decomposition) :
    decomposition.outputs = outputs ∧ decomposition.Complete network := by
  obtain ⟨gates, found, hgates, hfound, rfl⟩ := partitioned_eq_ok.mp h
  have hsearch : (network.search oracle outputs).oracle.Permissive (network.search oracle outputs).dim :=
    hpermissive
  have hpending := pending_firstForms houtputs hlayers hgates
  have hparts : ∀ part ∈ found, part.Over network.inputDim outputs.length network.firstForms := by
    intro part hpart
    obtain ⟨number, -, hrun⟩ := exists_of_mem_mapM hfound hpart
    exact hpending.partitionFrom_over hrun
  have hstart := Partition.Over.start network.shaped_firstForms outputs.length
  refine ⟨rfl, houtputs, (hstart.foldl_absorb hparts).wellFormed, fun point hbox _ => ?_⟩
  refine hstart.holds_foldl_absorb found hparts (Or.inr ?_)
  set count := min threads.log2 (gates.countP Gate.isCut)
  obtain ⟨signs, hcount, hinside⟩ := Assignment.exists_signs_inside point gates count hpending.known
  obtain ⟨number, hnumber, hsigns⟩ := exists_partitionSigns_eq signs
  rw [hcount] at hnumber hsigns
  obtain ⟨part, hpart, hrun⟩ := exists_mem_of_mapM hfound (List.mem_range.mpr hnumber)
  rw [hsigns] at hrun
  exact ⟨part, hpart, hpending.partition_holds hsearch hrun hbox hinside⟩

theorem faithful_of_partitioned (hexact : oracle.Exact network.inputDim)
    (houtputs : ∀ output ∈ outputs, output < network.outputDim)
    (hlayers : network.layers = first :: layer :: rest)
    (h : (network.search oracle outputs).partitioned threads layer rest network.firstForms = .ok decomposition) :
    decomposition.Faithful network := by
  refine ⟨(complete_of_partitioned hexact.permissive houtputs hlayers h).2, ?_⟩
  obtain ⟨gates, found, hgates, hfound, rfl⟩ := partitioned_eq_ok.mp h
  have hsearch : (network.search oracle outputs).oracle.Exact (network.search oracle outputs).dim := hexact
  have hready := network.ready oracle houtputs
  have htracks := network.tracks_firstForms
  rw [hlayers, List.tail_cons] at hready htracks
  have hgatesTrack := hready.tracks_classified hsearch hgates htracks
  have hparts : ∀ part ∈ found,
      part.Part network.inputDim outputs (forward (first :: layer :: rest)) network.firstForms := by
    intro part hpart
    obtain ⟨number, -, hrun⟩ := exists_of_mem_mapM hfound hpart
    exact (pending_firstForms houtputs hlayers hgates).partition_part hsearch hgatesTrack hrun
  rw [hlayers]
  exact (Partition.Part.foldl_absorb
    ⟨.start network.shaped_firstForms outputs.length, reproduces_start _ _⟩ hparts).reproduces

theorem complete_of_decompose (hpermissive : oracle.Permissive network.inputDim)
    (h : network.decompose oracle outputs = .ok decomposition) :
    network.requestedOutputs outputs = .ok decomposition.outputs ∧ decomposition.Complete network := by
  obtain ⟨requested, hrequested, hwhole⟩ := bind_eq_ok.mp h
  obtain ⟨rfl, -⟩ := decomposeOutputs_eq_ok hwhole
  exact ⟨hrequested, complete_of_decomposeOutputs hpermissive (lt_of_requestedOutputs hrequested) hwhole⟩

theorem complete_of_decomposeParallel (hpermissive : oracle.Permissive network.inputDim)
    (h : network.decomposeParallel oracle outputs threads = .ok decomposition) :
    network.requestedOutputs outputs = .ok decomposition.outputs ∧ decomposition.Complete network := by
  obtain ⟨requested, hrequested, hwhole | ⟨first, layer, rest, hlayers, hrun⟩⟩ := decomposeParallel_cases h
  · refine ⟨?_, complete_of_decomposeOutputs hpermissive (lt_of_requestedOutputs hrequested) hwhole⟩
    rw [(decomposeOutputs_eq_ok hwhole).1, hrequested]
  · obtain ⟨rfl, hcomplete⟩ :=
      complete_of_partitioned hpermissive (lt_of_requestedOutputs hrequested) hlayers hrun
    exact ⟨hrequested, hcomplete⟩

/-- The search in partitions covers the box with pieces that reproduce the outputs, whatever the number of
threads. -/
theorem faithful_of_decomposeParallel (hexact : oracle.Exact network.inputDim)
    (h : network.decomposeParallel oracle outputs threads = .ok decomposition) :
    network.requestedOutputs outputs = .ok decomposition.outputs ∧ decomposition.Faithful network := by
  refine ⟨(complete_of_decomposeParallel hexact.permissive h).1, ?_⟩
  obtain ⟨requested, hrequested, hwhole | ⟨first, layer, rest, hlayers, hrun⟩⟩ := decomposeParallel_cases h
  · exact faithful_of_decomposeOutputs hexact (lt_of_requestedOutputs hrequested) hwhole
  · exact faithful_of_partitioned hexact (lt_of_requestedOutputs hrequested) hlayers hrun

/-- With an oracle that calls no region with points in it empty, whatever its optima are, every point of the box
lies in some piece of each requested output, however the decomposition is searched. -/
theorem pieces_cover_box (network : Network ℚ) {oracle : Oracle ℚ}
    (hpermissive : oracle.Permissive network.inputDim) {outputs : List Nat} {decomposition : Decomposition ℚ}
    (hrun : network.decompose oracle outputs = .ok decomposition ∨
      ∃ threads, network.decomposeParallel oracle outputs threads = .ok decomposition) :
    network.requestedOutputs outputs = .ok decomposition.outputs ∧
      decomposition.pieces.length = decomposition.outputs.length ∧
      ∀ pieces ∈ decomposition.pieces, ∀ point ∈ unitBox network.inputDim,
        ∃ piece ∈ pieces, piece.contains decomposition.prototypes point 0 = true := by
  have hcomplete : network.requestedOutputs outputs = .ok decomposition.outputs ∧
      decomposition.Complete network := by
    rcases hrun with hrun | ⟨threads, hrun⟩
    · exact complete_of_decompose hpermissive hrun
    · exact complete_of_decomposeParallel hpermissive hrun
  obtain ⟨hrequested, hcomplete⟩ := hcomplete
  refine ⟨hrequested, hcomplete.wellFormed.length_eq, fun pieces hpieces point hbox => ?_⟩
  obtain ⟨piece, hpiece, hinside⟩ :=
    hcomplete.covers point hbox (fun _ hmem => absurd hmem List.not_mem_nil) pieces hpieces
  exact ⟨piece, hpiece, Piece.contains_iff_inside.mpr hinside⟩

/-- An oracle that finds no region empty and every gate cut. -/
def lax : Oracle ℚ where
  maximize _ _ := .ok (.optimal 1)
  tolerance := 0

theorem permissive_lax (dim : Nat) : lax.Permissive dim := by
  intro objective constraints _ _ hinfeasible
  cases hinfeasible

/-- Two partitions searched with answers that are wrong nearly everywhere still cover the point `3/4`. -/
theorem pieces_cover_box_shifted : ∃ decomposition,
    shifted.decomposeParallel lax [0] 2 = .ok decomposition ∧
      ∃ pieces, decomposition.pieces = [pieces] ∧
        ∃ piece ∈ pieces, piece.contains decomposition.prototypes [3 / 4] 0 = true := by
  have hok : (shifted.decomposeParallel lax [0] 2).isOk = true := by decide +kernel
  cases hrun : shifted.decomposeParallel lax [0] 2 with
  | error fault => rw [hrun] at hok; cases hok
  | ok decomposition =>
      obtain ⟨hrequested, hlength, hcovers⟩ :=
        pieces_cover_box shifted (permissive_lax _) (Or.inr ⟨2, hrun⟩)
      have houtputs : shifted.requestedOutputs [0] = .ok [0] := by decide
      have hsame : decomposition.outputs = [0] := Except.ok.inj (hrequested.symm.trans houtputs)
      rw [hsame] at hlength
      obtain ⟨pieces, hpieces⟩ := List.length_eq_one_iff.mp hlength
      refine ⟨decomposition, rfl, pieces, hpieces, hcovers pieces ?_ [3 / 4] ⟨rfl, by norm_num⟩⟩
      rw [hpieces]
      exact List.mem_singleton_self pieces

end Network

end ReluLogic
