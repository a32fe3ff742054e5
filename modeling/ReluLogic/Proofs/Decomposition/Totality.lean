import ReluLogic.Proofs.Decomposition.Shape

/-!
Searches with coherent oracles succeed. The region of a search is always one that the oracle has reported as
non-empty, so every gate on it has a position, and no question about a region can fail. The first layer of a
checked network gives a search that is ready.
-/

namespace ReluLogic

namespace Search

variable {α : Type} [Scalar α] {search : Search α}

theorem exists_isFeasible_eq (h : search.oracle.Coherent search.dim) {prototypes : List (Affine α)}
    {region : List Boundary} (hshape : Shaped search.dim prototypes) (hrefers : Refers prototypes region) :
    ∃ found, search.isFeasible prototypes region = .ok found := by
  obtain ⟨constraints, hconstraints⟩ := hrefers.exists_constraints
  obtain ⟨found, hfound⟩ := h.exists_isFeasible_eq (hshape.uniform hconstraints)
  exact ⟨found, bind_eq_ok.mpr ⟨constraints, hconstraints, hfound⟩⟩

/-- Further prototypes do not change whether a region is found non-empty. -/
theorem isFeasible_eq_of_extends {prototypes extended : List (Affine α)} {region : List Boundary}
    (hrefers : Refers prototypes region) (hextended : prototypes <+: extended) :
    search.isFeasible extended region = search.isFeasible prototypes region := by
  rw [isFeasible, isFeasible, hrefers.regionConstraints_eq hextended]

theorem exists_keepFeasible_eq (h : search.oracle.Coherent search.dim) {prototypes : List (Affine α)}
    (hshape : Shaped search.dim prototypes) (pieces : List Piece)
    (hpieces : ∀ piece ∈ pieces, Refers prototypes piece.region) :
    ∃ kept, search.keepFeasible prototypes pieces = .ok kept := by
  induction pieces with
  | nil => exact ⟨[], rfl⟩
  | cons piece pieces ih =>
      obtain ⟨hpiece, hrest⟩ := List.forall_mem_cons.mp hpieces
      obtain ⟨found, hfound⟩ := exists_isFeasible_eq h hshape hpiece
      obtain ⟨others, hothers⟩ := ih hrest
      exact ⟨_, bind_eq_ok.mpr ⟨found, hfound, bind_eq_ok.mpr ⟨others, hothers, rfl⟩⟩⟩

section Steps

variable {forms : List (Affine α)} {region : List Boundary} {state : Partition α}

theorem exists_emit_eq (h : search.oracle.Coherent search.dim) {first : Nat} (hforms : Shaped search.dim forms)
    (outputs : List Nat) (hwidth : ∀ output ∈ outputs, output < forms.length) :
    ∀ prototypes : List (Affine α), Shaped search.dim prototypes → Refers prototypes region →
      first + forms.length ≤ prototypes.length →
        ∃ found, search.emit forms first region outputs prototypes = .ok found := by
  induction outputs with
  | nil => exact fun prototypes _ _ _ => ⟨(prototypes, []), rfl⟩
  | cons output outputs ih =>
      intro prototypes hshape hrefers hlength
      obtain ⟨houtput, hrest⟩ := List.forall_mem_cons.mp hwidth
      set extended := prototypes ++ [(forms.getD output (.zero search.dim)).minusOne] with hextended
      have hgrow : prototypes <+: extended := List.prefix_append _ _
      have hshape' : Shaped search.dim extended := by
        refine shaped_append.mpr ⟨hshape, List.forall_mem_singleton.mpr ?_⟩
        rw [Affine.length_minusOne, Affine.length_getD hforms]
      have hlength' : extended.length = prototypes.length + 1 := List.length_append
      have hregion : Refers extended region := hrefers.mono hgrow
      have hraw : first + output < extended.length := by omega
      have hupper : prototypes.length < extended.length := by omega
      obtain ⟨kept, hkept⟩ := exists_keepFeasible_eq h hshape'
        (candidates search.dim (forms.getD output (.zero search.dim)) region (first + output)
          prototypes.length) (by
          intro piece hpiece
          rcases mem_candidates.mp hpiece with rfl | rfl | rfl
          · exact refers_append.mpr ⟨hregion, List.forall_mem_singleton.mpr hraw⟩
          · exact refers_append.mpr ⟨hregion, List.forall_mem_cons.mpr
              ⟨hraw, List.forall_mem_singleton.mpr hupper⟩⟩
          · exact refers_append.mpr ⟨hregion, List.forall_mem_singleton.mpr hupper⟩)
      obtain ⟨⟨final, others⟩, hothers⟩ := ih hrest extended hshape' hregion (by omega)
      exact ⟨_, bind_eq_ok.mpr ⟨kept, hkept, bind_eq_ok.mpr ⟨_, hothers, rfl⟩⟩⟩

/-- On a region that is reported non-empty every gate of a layer has a position. -/
theorem Ready.exists_classify_eq (h : search.oracle.Coherent search.dim) {layers : List (Layer α)}
    (hready : search.Ready layers forms region state)
    (hfeasible : search.isFeasible state.prototypes region = .ok true) :
    ∃ gates, search.classify (state.prototypes ++ forms) forms region state.prototypes.length =
      .ok gates := by
  obtain ⟨constraints, hconstraints, hfound⟩ := bind_eq_ok.mp hfeasible
  have huniform := hready.wellFormed.shaped.uniform hconstraints
  obtain ⟨positions, hpositions⟩ := exists_mapM_eq_ok fun form hform =>
    h.exists_position_eq (hready.shaped form hform) huniform hfound
  refine ⟨_, bind_eq_ok.mpr ⟨constraints, ?_, bind_eq_ok.mpr ⟨positions, hpositions, rfl⟩⟩⟩
  rw [hready.refers.regionConstraints_eq (List.prefix_append _ _), hconstraints]

end Steps

/-- One way of a cut gate keeps the shapes and leaves what was found before in place. -/
theorem Pending.grown_of_half {layer : Layer α} {rest : List (Layer α)} {gate : Gate α} {gates : List (Gate α)}
    {values : List (Affine α)} {region : List Boundary} {sign : Sign} {state result : Partition α}
    (hpending : search.Pending layer rest (gate :: gates) values region state)
    (h : search.Half (fun values region state result =>
      search.branch (search.below layer rest) gates values region state = .ok result)
      gate values region sign state result) :
    result.WellFormed search.dim search.outputs.length ∧ result.Extends state := by
  rcases h with ⟨-, hbranch⟩ | ⟨-, rfl⟩
  · exact ⟨(search.shapedRules_true.branch (hpending.cut sign) hbranch).1,
      (search.shapedRules_true.rules.branch hbranch).1⟩
  · exact ⟨hpending.wellFormed, .refl _⟩

/-- Among gates a search succeeds when it succeeds from every place that it continues to. -/
theorem Pending.exists_branch_eq (h : search.oracle.Coherent search.dim) {layer : Layer α}
    {rest : List (Layer α)}
    (hbelow : ∀ {forms region state}, search.Ready rest forms region state →
      search.isFeasible state.prototypes region = .ok true →
        ∃ result, search.descend rest forms region state = .ok result) (gates : List (Gate α)) :
    ∀ {values region state}, search.Pending layer rest gates values region state →
      search.isFeasible state.prototypes region = .ok true →
        ∃ result, search.branch (search.below layer rest) gates values region state = .ok result := by
  induction gates with
  | nil => exact fun hpending hfeasible => hbelow hpending.done hfeasible
  | cons gate gates ih =>
      intro values region state hpending hfeasible
      cases hposition : gate.position.sign? with
      | some sign =>
          rw [branch_of_sign? hposition]
          exact ih (hpending.fixed sign) hfeasible
      | none =>
          have hcut := Position.sign?_eq_none_iff.mp hposition
          have hhalf : ∀ (sign : Sign) (state : Partition α),
              search.Pending layer rest (gate :: gates) values region state →
                ∃ result, search.Half (fun values region state result =>
                  search.branch (search.below layer rest) gates values region state = .ok result)
                  gate values region sign state result := by
            intro sign state hpending
            obtain ⟨found, hfound⟩ := exists_isFeasible_eq h hpending.wellFormed.shaped
              (hpending.cut sign).refers
            cases found with
            | true =>
                obtain ⟨result, hresult⟩ := ih (hpending.cut sign) hfound
                exact ⟨result, Or.inl ⟨hfound, hresult⟩⟩
            | false => exact ⟨state, Or.inr ⟨hfound, rfl⟩⟩
          obtain ⟨middle, hgeq⟩ := hhalf .geq state hpending
          obtain ⟨hformed, hmiddle⟩ := hpending.grown_of_half hgeq
          obtain ⟨result, hleq⟩ := hhalf .leq middle (hpending.grow hformed hmiddle)
          exact ⟨result, (branch_of_cutting hcut).mpr ⟨middle, hgeq, hleq⟩⟩

/-- A search over a region that is reported non-empty succeeds. -/
theorem Ready.exists_descend_eq (h : search.oracle.Coherent search.dim) (layers : List (Layer α)) :
    ∀ {forms region state}, search.Ready layers forms region state →
      search.isFeasible state.prototypes region = .ok true →
        ∃ result, search.descend layers forms region state = .ok result := by
  induction layers with
  | nil =>
      intro forms region state hready _
      obtain ⟨⟨final, slots⟩, hemit⟩ := exists_emit_eq h hready.shaped search.outputs hready.width
        (state.prototypes ++ forms) (shaped_append.mpr ⟨hready.wellFormed.shaped, hready.shaped⟩)
        (hready.refers.mono (List.prefix_append _ _)) List.length_append.symm.le
      exact ⟨_, bind_eq_ok.mpr ⟨_, hemit, rfl⟩⟩
  | cons layer rest ih =>
      intro forms region state hready hfeasible
      obtain ⟨gates, hgates⟩ := hready.exists_classify_eq h hfeasible
      have hfeasible' : search.isFeasible (state.prototypes ++ forms) region = .ok true := by
        rw [isFeasible_eq_of_extends hready.refers (List.prefix_append _ _), hfeasible]
      obtain ⟨result, hresult⟩ := Pending.exists_branch_eq h ih gates (hready.classified hgates) hfeasible'
      exact ⟨result, bind_eq_ok.mpr ⟨gates, hgates, hresult⟩⟩

end Search

/-! ### Networks -/

namespace Network

variable {α : Type} [Scalar α]

theorem checkNodes_spec {layer expected : Nat} (nodes : List (Node α)) :
    ∀ {index}, checkNodes layer expected index nodes = .ok () →
      ∀ node ∈ nodes, node.weights.length = expected := by
  induction nodes with
  | nil => exact fun _ node hnode => absurd hnode List.not_mem_nil
  | cons first nodes ih =>
      intro index h
      obtain ⟨⟨⟩, hfirst, hrest⟩ := bind_eq_ok.mp h
      refine List.forall_mem_cons.mpr ⟨?_, ih hrest⟩
      by_contra hlength
      rw [checkNode, if_pos hlength] at hfirst
      cases hfirst

/-- A checked network has a first layer, and its nodes read all inputs. -/
theorem exists_layers_eq (network : Network α) :
    ∃ first rest, network.layers = first :: rest ∧
      ∀ node ∈ first, node.weights.length = network.inputDim := by
  obtain ⟨layers, hchecked⟩ := network
  match layers, hchecked with
  | [], hchecked => cases hchecked
  | [] :: _, hchecked => cases hchecked
  | (node :: nodes) :: rest, hchecked =>
      refine ⟨node :: nodes, rest, rfl, ?_⟩
      rw [check] at hchecked
      split_ifs at hchecked
      obtain ⟨⟨⟩, hnodes, -⟩ := bind_eq_ok.mp hchecked
      exact checkNodes_spec _ hnodes

omit [Scalar α] in
theorem lastWidth_eq (first : Layer α) (rest : List (Layer α)) :
    lastWidth rest first.length = ((first :: rest).getLast?.getD []).length := by
  induction rest generalizing first with
  | nil => rfl
  | cons layer rest ih =>
      rw [lastWidth, ih, List.getLast?_cons_cons]

theorem shaped_firstForms (network : Network α) : Shaped network.inputDim network.firstForms := by
  obtain ⟨first, rest, hlayers, hweights⟩ := network.exists_layers_eq
  intro form hform
  rw [firstForms, hlayers] at hform
  obtain ⟨node, hnode, rfl⟩ := List.mem_map.mp hform
  exact congrArg (· + 1) (hweights node hnode)

theorem lastWidth_firstForms (network : Network α) :
    lastWidth network.layers.tail network.firstForms.length = network.outputDim := by
  obtain ⟨first, rest, hlayers, -⟩ := network.exists_layers_eq
  rw [outputDim, firstForms, hlayers, List.headD_cons, List.tail_cons, List.length_map, lastWidth_eq]

/-- The search over a network is ready at its first layer. -/
theorem ready (network : Network α) (oracle : Oracle α) {outputs : List Nat}
    (houtputs : ∀ output ∈ outputs, output < network.outputDim) :
    (network.search oracle outputs).Ready network.layers.tail network.firstForms []
      (.start [] outputs.length) where
  wellFormed := .start (fun _ hform => absurd hform List.not_mem_nil) outputs.length
  shaped := network.shaped_firstForms
  refers _ hmem := absurd hmem List.not_mem_nil
  width output houtput := network.lastWidth_firstForms.symm ▸ houtputs output houtput

theorem requestedOutputs_eq_ok {network : Network α} {outputs requested : List Nat} :
    network.requestedOutputs outputs = .ok requested ↔
      (∀ output ∈ outputs, output < network.outputDim) ∧
        requested = if outputs.isEmpty then List.range network.outputDim else outputs := by
  rw [requestedOutputs]
  cases hfind : outputs.find? fun output => network.outputDim ≤ output with
  | some output =>
      have hmem := List.mem_of_find?_eq_some hfind
      have hlarge : network.outputDim ≤ output := by simpa using List.find?_some hfind
      constructor
      · intro h
        cases h
      · rintro ⟨hall, -⟩
        exact absurd (hall output hmem) (not_lt.mpr hlarge)
  | none =>
      have hall : ∀ output ∈ outputs, output < network.outputDim := fun output houtput =>
        not_le.mp fun hle => List.find?_eq_none.mp hfind output houtput (decide_eq_true hle)
      constructor
      · intro h
        cases h
        exact ⟨hall, rfl⟩
      · rintro ⟨-, rfl⟩
        rfl

theorem lt_of_requestedOutputs {network : Network α} {outputs requested : List Nat}
    (h : network.requestedOutputs outputs = .ok requested) :
    ∀ output ∈ requested, output < network.outputDim := by
  obtain ⟨hall, rfl⟩ := requestedOutputs_eq_ok.mp h
  split_ifs
  · exact fun output houtput => List.mem_range.mp houtput
  · exact hall

/-- With a coherent oracle that finds the box non-empty a network is decomposed. -/
theorem exists_decomposeOutputs_eq (network : Network α) {oracle : Oracle α} {outputs : List Nat}
    (h : oracle.Coherent network.inputDim) (hbox : oracle.isFeasible network.inputDim [] = .ok true)
    (houtputs : ∀ output ∈ outputs, output < network.outputDim) :
    ∃ decomposition, network.decomposeOutputs oracle outputs = .ok decomposition := by
  have hsearch : (network.search oracle outputs).oracle.Coherent (network.search oracle outputs).dim := h
  obtain ⟨found, hfound⟩ := Search.Ready.exists_descend_eq hsearch _
    (network.ready oracle houtputs) (bind_eq_ok.mpr ⟨[], rfl, hbox⟩)
  have hensure : (network.search oracle outputs).ensureBox = .ok () :=
    bind_eq_ok.mpr ⟨true, hbox, rfl⟩
  exact ⟨_, bind_eq_ok.mpr ⟨(), hensure, bind_eq_ok.mpr ⟨found, hfound, rfl⟩⟩⟩

end Network

end ReluLogic
