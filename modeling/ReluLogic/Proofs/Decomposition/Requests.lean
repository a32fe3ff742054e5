import ReluLogic.Proofs.Decomposition.Sequential

/-!
What a request for other outputs changes. Every leaf of a search puts one prototype per requested output behind
the others, so two searches of a network for different outputs soon have different prototypes at the same place.
They still ask the oracle the same questions in the same order, because the boundaries of their regions stand for
the same constraints. The pieces of an output that both request are therefore the same up to the places that
their boundaries name.
-/

namespace ReluLogic

variable {α : Type}

/-- Two regions, each over prototypes of its own, stand for the same constraints in the same order. -/
def SameSides (known others : List (Affine α)) (region other : List Boundary) : Prop :=
  ∃ constraints, regionConstraints known region = .ok constraints ∧ regionConstraints others other = .ok constraints

namespace SameSides

variable {known known' others others' : List (Affine α)} {region region' other other' : List Boundary}

theorem extend (h : SameSides known others region other) (hknown : known <+: known') (hothers : others <+: others') :
    SameSides known' others' region other := by
  obtain ⟨constraints, hregion, hother⟩ := h
  exact ⟨constraints, regionConstraints_of_extends hknown hregion, regionConstraints_of_extends hothers hother⟩

theorem append (h : SameSides known others region other) (h' : SameSides known others region' other') :
    SameSides known others (region ++ region') (other ++ other') := by
  obtain ⟨constraints, hregion, hother⟩ := h
  obtain ⟨constraints', hregion', hother'⟩ := h'
  refine ⟨constraints ++ constraints', ?_, ?_⟩
  · rw [regionConstraints, List.mapM_append]
    exact bind_eq_ok.mpr ⟨_, hregion, bind_eq_ok.mpr ⟨_, hregion', rfl⟩⟩
  · rw [regionConstraints, List.mapM_append]
    exact bind_eq_ok.mpr ⟨_, hother, bind_eq_ok.mpr ⟨_, hother', rfl⟩⟩

theorem singleton {place place' : Nat} {form : Affine α} (hknown : known[place]? = some form)
    (hothers : others[place']? = some form) (sign : Sign) :
    SameSides known others [⟨place, sign⟩] [⟨place', sign⟩] :=
  ⟨[⟨form, sign⟩], mapM_eq_ok.mpr (.cons (Boundary.resolve_eq_ok.mpr ⟨hknown, rfl⟩) .nil),
    mapM_eq_ok.mpr (.cons (Boundary.resolve_eq_ok.mpr ⟨hothers, rfl⟩) .nil)⟩

end SameSides

/-- Two pieces, each over prototypes of its own, have the same coefficients on regions that stand for the same
constraints. -/
def Piece.Alike (known others : List (Affine α)) (piece other : Piece) : Prop :=
  piece.coefficients = other.coefficients ∧ SameSides known others piece.region other.region

/-- One place in two partitions holds pieces that are alike one by one. -/
def Partition.Agree (place other : Nat) (first second : Partition α) : Prop :=
  ∃ pieces pieces', first.pieces[place]? = some pieces ∧ second.pieces[other]? = some pieces' ∧
    List.Forall₂ (Piece.Alike first.prototypes second.prototypes) pieces pieces'

theorem forall₂_alike_extend {known known' others others' : List (Affine α)} {pieces pieces' : List Piece}
    (h : List.Forall₂ (Piece.Alike known others) pieces pieces') (hknown : known <+: known')
    (hothers : others <+: others') : List.Forall₂ (Piece.Alike known' others') pieces pieces' :=
  h.imp fun _ _ halike => ⟨halike.1, halike.2.extend hknown hothers⟩

theorem Partition.Agree.extend {place other : Nat} {first second : Partition α} {known others : List (Affine α)}
    (h : Partition.Agree place other first second) (hknown : first.prototypes <+: known)
    (hothers : second.prototypes <+: others) :
    Partition.Agree place other ⟨known, first.pieces⟩ ⟨others, second.pieces⟩ := by
  obtain ⟨pieces, pieces', hpieces, hpieces', halike⟩ := h
  exact ⟨pieces, pieces', hpieces, hpieces', forall₂_alike_extend halike hknown hothers⟩

namespace Search

variable [Scalar α] {search : Search α} {outputs : List Nat}

/-- The same search for other outputs. -/
def requesting (search : Search α) (outputs : List Nat) : Search α :=
  { search with outputs }

/-! ### Questions -/

section Questions

variable {known others forms : List (Affine α)} {region other : List Boundary}

theorem isFeasible_eq_of_sameSides (h : SameSides known others region other) :
    (search.requesting outputs).isFeasible others other = search.isFeasible known region := by
  obtain ⟨constraints, hregion, hother⟩ := h
  rw [isFeasible, isFeasible, hregion, hother]
  rfl

theorem alike_of_keepFeasible {pieces pieces' : List Piece}
    (h : List.Forall₂ (Piece.Alike known others) pieces pieces') :
    ∀ {kept kept'}, search.keepFeasible known pieces = .ok kept →
      (search.requesting outputs).keepFeasible others pieces' = .ok kept' →
        List.Forall₂ (Piece.Alike known others) kept kept' := by
  induction h with
  | nil =>
      intro kept kept' hkept hkept'
      cases hkept
      cases hkept'
      exact .nil
  | cons hpiece _ ih =>
      intro kept kept' hkept hkept'
      obtain ⟨found, hfound, hkept⟩ := bind_eq_ok.mp hkept
      obtain ⟨rest, hrest, hkept⟩ := bind_eq_ok.mp hkept
      obtain ⟨found', hfound', hkept'⟩ := bind_eq_ok.mp hkept'
      obtain ⟨rest', hrest', hkept'⟩ := bind_eq_ok.mp hkept'
      rw [isFeasible_eq_of_sameSides hpiece.2, hfound] at hfound'
      cases hkept
      cases hkept'
      cases hfound'
      cases found with
      | true => exact .cons hpiece (ih hrest hrest')
      | false => exact ih hrest hrest'

/-- The parts that an output cuts two regions into are alike where the regions are and the prototypes of the output
stand at the places named. -/
theorem alike_candidates {output first first' : Nat} {before before' : List (Affine α)}
    (h : SameSides known others region other) (hplaced : search.Placed forms first output before known)
    (hplaced' : (search.requesting outputs).Placed forms first' output before' others) :
    List.Forall₂ (Piece.Alike known others)
      (candidates search.dim (forms.getD output (.zero search.dim)) region (first + output) before.length)
      (candidates search.dim (forms.getD output (.zero search.dim)) other (first' + output) before'.length) := by
  have hraw := SameSides.singleton hplaced.raw hplaced'.raw
  have hupper := SameSides.singleton hplaced.upper hplaced'.upper
  exact .cons ⟨rfl, h.append (hraw .leq)⟩ (.cons ⟨rfl, h.append ((hraw .geq).append (hupper .leq))⟩
    (.cons ⟨rfl, h.append (hupper .geq)⟩ .nil))

/-- Gates, each at a place of its own, that are resolved in the same way. -/
structure SameGate (gate other : Gate α) : Prop where
  form : gate.form = other.form
  position : gate.position = other.position

theorem SameGate.output_eq {gate other : Gate α} (h : SameGate gate other) (sign : Sign) :
    gate.output sign = other.output sign := by
  cases sign with
  | geq => exact h.form
  | leq => rw [Gate.output, Gate.output, h.form]

theorem sameGate_of_classify {first first' : Nat} {gates gates' : List (Gate α)}
    (h : SameSides known others region other) (hgates : search.classify known forms region first = .ok gates)
    (hgates' : (search.requesting outputs).classify others forms other first' = .ok gates') :
    List.Forall₂ SameGate gates gates' := by
  obtain ⟨constraints, hregion, hother⟩ := h
  obtain ⟨_, hresolved, hgates⟩ := bind_eq_ok.mp hgates
  obtain ⟨_, hresolved', hgates'⟩ := bind_eq_ok.mp hgates'
  cases hregion.symm.trans hresolved
  cases hother.symm.trans hresolved'
  obtain ⟨positions, hpositions, hgates⟩ := bind_eq_ok.mp hgates
  obtain ⟨positions', hpositions', hgates'⟩ := bind_eq_ok.mp hgates'
  cases hpositions.symm.trans hpositions'
  cases hgates
  cases hgates'
  refine List.forall₂_iff_get.mpr ⟨by rw [List.length_mapIdx, List.length_mapIdx], fun place hplace hplace' => ?_⟩
  rw [List.get_eq_getElem, List.get_eq_getElem, List.getElem_mapIdx, List.getElem_mapIdx]
  exact ⟨rfl, rfl⟩

end Questions

/-! ### Two searches -/

section Runs

variable {slot slot' : Nat} {forms : List (Affine α)} {region region' : List Boundary} {state state' : Partition α}

/-- On a leaf both searches put alike pieces behind those of an output. -/
theorem Ready.agree_leaf {output : Nat} {final final' : List (Affine α)} {slots slots' : List (List Piece)}
    (hready : search.Ready [] forms region state)
    (hready' : (search.requesting outputs).Ready [] forms region' state')
    (houtput : search.outputs[slot]? = some output) (houtput' : outputs[slot']? = some output)
    (hemit : search.emit forms state.prototypes.length region search.outputs (state.prototypes ++ forms) =
      .ok (final, slots))
    (hemit' : (search.requesting outputs).emit forms state'.prototypes.length region' outputs
      (state'.prototypes ++ forms) = .ok (final', slots'))
    (hregion : SameSides state.prototypes state'.prototypes region region')
    (h : Partition.Agree slot slot' state state') :
    Partition.Agree slot slot' ⟨final, appendSlots state.pieces slots⟩ ⟨final', appendSlots state'.pieces slots'⟩ := by
  obtain ⟨held, held', hheld, hheld', halike⟩ := h
  obtain ⟨hlength, hemitted⟩ := emitted_of_getElem? hemit
  obtain ⟨hlength', hemitted'⟩ := emitted_of_getElem? hemit'
  obtain ⟨added, hadded⟩ : ∃ added, slots[slot]? = some added :=
    ⟨_, List.getElem?_eq_getElem (hlength ▸ (List.getElem?_eq_some_iff.mp houtput).1)⟩
  obtain ⟨added', hadded'⟩ : ∃ added', slots'[slot']? = some added' :=
    ⟨_, List.getElem?_eq_getElem (hlength' ▸ (List.getElem?_eq_some_iff.mp houtput').1)⟩
  obtain ⟨before, hbefore, hafter, hkept⟩ := hemitted slot output added houtput hadded
  obtain ⟨before', hbefore', hafter', hkept'⟩ := hemitted' slot' output added' houtput' hadded'
  have hplaced := hready.placed (List.mem_of_getElem? houtput) hbefore List.prefix_rfl
  have hplaced' := hready'.placed (List.mem_of_getElem? houtput') hbefore' List.prefix_rfl
  -- the oracle is asked before the prototypes of the outputs requested later are there
  have hgrown : state.prototypes <+: before ++ [(forms.getD output (.zero search.dim)).minusOne] :=
    (List.prefix_append _ forms).trans (hbefore.trans (List.prefix_append _ _))
  have hgrown' : state'.prototypes <+: before' ++ [(forms.getD output (.zero search.dim)).minusOne] :=
    (List.prefix_append _ forms).trans (hbefore'.trans (List.prefix_append _ _))
  have hadds := alike_of_keepFeasible (alike_candidates (hregion.extend hgrown hgrown') hplaced hplaced') hkept hkept'
  refine ⟨held ++ added, held' ++ added',
    (getElem?_appendSlots (hready.wellFormed.length_eq.trans hlength.symm)).mpr ⟨_, _, hheld, hadded, rfl⟩,
    (getElem?_appendSlots (hready'.wellFormed.length_eq.trans hlength'.symm)).mpr ⟨_, _, hheld', hadded', rfl⟩, ?_⟩
  exact List.rel_append (forall₂_alike_extend halike (hgrown.trans hafter) (hgrown'.trans hafter'))
    (forall₂_alike_extend hadds hafter hafter')

/-- Whatever agrees before a search of layers agrees after it, when the search for other outputs starts with a region
that stands for the same constraints. -/
def Explores (search : Search α) (outputs : List Nat) (slot slot' : Nat) (layers : List (Layer α))
    (forms : List (Affine α)) (region : List Boundary) (state result : Partition α) : Prop :=
  ∀ {region' state' result'}, (search.requesting outputs).Ready layers forms region' state' →
    SameSides state.prototypes state'.prototypes region region' →
      (search.requesting outputs).descend layers forms region' state' = .ok result' →
        Partition.Agree slot slot' state state' → Partition.Agree slot slot' result result'

/-- The same of a search among gates. -/
def Resolves (search : Search α) (outputs : List Nat) (slot slot' : Nat) (layer : Layer α) (rest : List (Layer α))
    (gates : List (Gate α)) (values : List (Affine α)) (region : List Boundary) (state result : Partition α) : Prop :=
  ∀ {gates' region' state' result'}, List.Forall₂ SameGate gates gates' →
    (search.requesting outputs).Pending layer rest gates' values region' state' →
      SameSides state.prototypes state'.prototypes region region' →
        (search.requesting outputs).branch ((search.requesting outputs).below layer rest) gates' values region' state' =
            .ok result' →
          Partition.Agree slot slot' state state' → Partition.Agree slot slot' result result'

/-- One way of a cut gate is explored by both searches or by neither. -/
theorem Pending.agree_half {layer : Layer α} {rest : List (Layer α)} {gate gate' : Gate α}
    {gates gates' : List (Gate α)} {values : List (Affine α)} {sign : Sign} {result result' : Partition α}
    (hpending : search.Pending layer rest (gate :: gates) values region state)
    (hpending' : (search.requesting outputs).Pending layer rest (gate' :: gates') values region' state')
    (hgate : SameGate gate gate') (hgates : List.Forall₂ SameGate gates gates')
    (hregion : SameSides state.prototypes state'.prototypes region region')
    (hhalf : search.Half (search.Resolves outputs slot slot' layer rest gates) gate values region sign state result)
    (hhalf' : (search.requesting outputs).Half (fun values region state result =>
      (search.requesting outputs).branch ((search.requesting outputs).below layer rest) gates' values region state =
        .ok result) gate' values region' sign state' result')
    (h : Partition.Agree slot slot' state state') : Partition.Agree slot slot' result result' := by
  have hform := (hpending.known gate List.mem_cons_self).2
  have hform' := (hpending'.known gate' List.mem_cons_self).2
  have hcut : SameSides state.prototypes state'.prototypes (region ++ [gate.boundary sign])
      (region' ++ [gate'.boundary sign]) := by
    refine hregion.append (.singleton hform ?_ sign)
    rw [hform', hgate.form]
  rcases hhalf with ⟨hfound, hresolves⟩ | ⟨hempty, rfl⟩
  · rcases hhalf' with ⟨-, hbranch'⟩ | ⟨hempty', -⟩
    · have hnarrowed := hpending'.cut sign
      rw [← hgate.output_eq] at hbranch' hnarrowed
      exact hresolves hgates hnarrowed hcut hbranch' h
    · rw [isFeasible_eq_of_sameSides hcut, hfound] at hempty'
      cases hempty'
  · rcases hhalf' with ⟨hfound', -⟩ | ⟨-, rfl⟩
    · rw [isFeasible_eq_of_sameSides hcut, hempty] at hfound'
      cases hfound'
    · exact h

/-- A search for other outputs that starts where this one does, and with pieces that agree, ends with pieces that
agree. -/
theorem shapedRules_agree {output : Nat} (houtput : search.outputs[slot]? = some output)
    (houtput' : outputs[slot']? = some output) :
    search.ShapedRules (search.Explores outputs slot slot') (search.Resolves outputs slot slot') where
  leaf hready hemit := by
    intro region' state' result' hready' hregion hrun h
    obtain ⟨⟨final', slots'⟩, hemit', hresult⟩ := bind_eq_ok.mp hrun
    cases hresult
    exact hready.agree_leaf hready' houtput houtput' hemit hemit' hregion h
  layer {layer rest forms region state gates result} _ hgates hresolved := by
    intro region' state' result' hready' hregion hrun h
    obtain ⟨gates', hgates', hbranch⟩ := bind_eq_ok.mp hrun
    have hgrown : SameSides (state.prototypes ++ forms) (state'.prototypes ++ forms) region region' :=
      hregion.extend (List.prefix_append _ _) (List.prefix_append _ _)
    exact hresolved (sameGate_of_classify hgrown hgates hgates') (hready'.classified hgates') hgrown hbranch
      (h.extend (List.prefix_append _ _) (List.prefix_append _ _))
  done _ hexplored := by
    intro gates' region' state' result' hsame hpending' hregion hrun h
    cases hsame
    exact hexplored hpending'.done hregion hrun h
  fixed {layer rest gate gates values region state result sign} _ hsign hresolved := by
    intro gates' region' state' result' hsame hpending' hregion hrun h
    obtain ⟨gate', others, hgate, hothers, rfl⟩ := List.forall₂_cons_left_iff.mp hsame
    rw [branch_of_sign? (hgate.position ▸ hsign), ← hgate.output_eq] at hrun
    have hfixed := hpending'.fixed sign
    rw [← hgate.output_eq] at hfixed
    exact hresolved hothers hfixed hregion hrun h
  cut {layer rest gate gates values region state middle result} hpending hcut hmiddle _ hformed hgeq hleq := by
    intro gates' region' state' result' hsame hpending' hregion hrun h
    obtain ⟨gate', others, hgate, hothers, rfl⟩ := List.forall₂_cons_left_iff.mp hsame
    obtain ⟨middle', hgeq', hleq'⟩ := (branch_of_cutting (hgate.position ▸ hcut)).mp hrun
    obtain ⟨hformed', hmiddle'⟩ := hpending'.grown_of_half hgeq'
    have hfirst := hpending.agree_half hpending' hgate hothers hregion hgeq hgeq' h
    exact (hpending.grow hformed hmiddle).agree_half (hpending'.grow hformed' hmiddle') hgate hothers
      (hregion.extend hmiddle.prototypes hmiddle'.prototypes) hleq hleq' hfirst

end Runs

end Search

namespace Network

variable [Scalar α]

/-- The pieces of an output do not depend on which other outputs are requested: two decompositions of a network with
the same oracle hold, at every slot of an output that both request, the same coefficients on regions that stand for
the same constraints, piece by piece. -/
theorem pieces_alike_of_requests (network : Network α) {oracle : Oracle α} {outputs others : List Nat}
    {first second : Decomposition α} (hfirst : network.decompose oracle outputs = .ok first)
    (hsecond : network.decompose oracle others = .ok second) :
    network.requestedOutputs outputs = .ok first.outputs ∧ network.requestedOutputs others = .ok second.outputs ∧
      ∀ slot slot' output : Nat, first.outputs[slot]? = some output → second.outputs[slot']? = some output →
        ∃ pieces pieces', first.pieces[slot]? = some pieces ∧ second.pieces[slot']? = some pieces' ∧
          List.Forall₂ (Piece.Alike first.prototypes second.prototypes) pieces pieces' := by
  obtain ⟨requested, hrequested, hrun⟩ := bind_eq_ok.mp hfirst
  obtain ⟨requested', hrequested', hrun'⟩ := bind_eq_ok.mp hsecond
  obtain ⟨rfl, hdescend⟩ := decomposeOutputs_eq_ok hrun
  obtain ⟨rfl, hdescend'⟩ := decomposeOutputs_eq_ok hrun'
  refine ⟨hrequested, hrequested', fun slot slot' output houtput houtput' => ?_⟩
  have hready := network.ready oracle (lt_of_requestedOutputs hrequested)
  have hready' := network.ready oracle (lt_of_requestedOutputs hrequested')
  have hexplores := ((network.search oracle first.outputs).shapedRules_agree houtput houtput').descend hready hdescend
  refine hexplores.2 hready' ⟨[], rfl, rfl⟩ hdescend' ⟨[], [], ?_, ?_, .nil⟩
  · exact List.getElem?_replicate_of_lt (List.getElem?_eq_some_iff.mp houtput).1
  · exact List.getElem?_replicate_of_lt (List.getElem?_eq_some_iff.mp houtput').1

/-- The network `x ↦ (max (x - 1/2) 0, 4 max (x - 1/2) 0)`. -/
def forked : Network ℚ :=
  ⟨[[⟨-1 / 2, [1]⟩], [⟨0, [1]⟩, ⟨0, [4]⟩]], rfl⟩

/-- The five pieces of the second output, requested alone or behind the first: the boundaries name other places and
stand for the same constraints. -/
theorem pieces_alike_of_requests_forked : ∃ alone both pieces pieces',
    forked.decompose Interval.oracle [1] = .ok alone ∧ forked.decompose Interval.oracle [0, 1] = .ok both ∧
      alone.pieces[0]? = some pieces ∧ both.pieces[1]? = some pieces' ∧ pieces.length = 5 ∧ pieces ≠ pieces' ∧
      List.Forall₂ (Piece.Alike alone.prototypes both.prototypes) pieces pieces' := by
  have halone : forked.decompose Interval.oracle [1] = .ok
      ⟨[⟨[-1 / 2, 1]⟩, ⟨[-1 / 2, 1]⟩, ⟨[-2, 4]⟩, ⟨[-3, 4]⟩, ⟨[0, 0]⟩, ⟨[0, 0]⟩, ⟨[-1, 0]⟩], [1],
        [[.zero 1 [.geq 0, .leq 2], ⟨[⟨-2, 1⟩, ⟨4, 1⟩], [.geq 0, .geq 2, .leq 3]⟩, .one 1 [.geq 0, .geq 3],
          .zero 1 [.leq 0, .leq 5], .zero 1 [.leq 0, .geq 5, .leq 6]]]⟩ := by
    decide +kernel
  have hboth : forked.decompose Interval.oracle [0, 1] = .ok
      ⟨[⟨[-1 / 2, 1]⟩, ⟨[-1 / 2, 1]⟩, ⟨[-2, 4]⟩, ⟨[-3 / 2, 1]⟩, ⟨[-3, 4]⟩, ⟨[0, 0]⟩, ⟨[0, 0]⟩, ⟨[-1, 0]⟩,
          ⟨[-1, 0]⟩], [0, 1],
        [[.zero 1 [.geq 0, .leq 1], ⟨[⟨-1, 2⟩, .one], [.geq 0, .geq 1, .leq 3]⟩, .zero 1 [.leq 0, .leq 5],
            .zero 1 [.leq 0, .geq 5, .leq 7]],
          [.zero 1 [.geq 0, .leq 2], ⟨[⟨-2, 1⟩, ⟨4, 1⟩], [.geq 0, .geq 2, .leq 4]⟩, .one 1 [.geq 0, .geq 4],
            .zero 1 [.leq 0, .leq 6], .zero 1 [.leq 0, .geq 6, .leq 8]]]⟩ := by
    decide +kernel
  obtain ⟨-, -, hslots⟩ := forked.pieces_alike_of_requests halone hboth
  obtain ⟨pieces, pieces', hpieces, hpieces', halike⟩ := hslots 0 1 1 rfl rfl
  cases hpieces
  cases hpieces'
  exact ⟨_, _, _, _, halone, hboth, rfl, rfl, rfl, by decide, halike⟩

end Network

end ReluLogic
