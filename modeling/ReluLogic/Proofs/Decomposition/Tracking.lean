import ReluLogic.Proofs.Decomposition.Reproduction

/-!
The invariants of a search in the exact reading. With an exact oracle the forms on the current region are
followed by the layers that are left to the network's outputs, so that every emitted piece agrees with its
output. With an oracle that never calls a non-empty region empty every point of the current region ends up in
some piece of each slot.
-/

namespace ReluLogic

variable {dim : Nat} {target : List ℚ → List ℚ}

/-- On a region the layers that are left turn the values of the forms into the target. -/
def Tracks (dim : Nat) (target : List ℚ → List ℚ) (layers : List (Layer ℚ)) (forms : List (Affine ℚ))
    (region : List Boundary) (prototypes : List (Affine ℚ)) : Prop :=
  ∀ point ∈ unitBox dim, Inside prototypes region point →
    Network.resume layers (forms.map (·.evaluate point)) = target point

/-- The same among the gates before a layer, where a gate that is not cut has the sign of its position. -/
def TracksGates (dim : Nat) (target : List ℚ → List ℚ) (layer : Layer ℚ) (rest : List (Layer ℚ))
    (gates : List (Gate ℚ)) (values : List (Affine ℚ)) (region : List Boundary) (prototypes : List (Affine ℚ)) :
    Prop :=
  ∀ point ∈ unitBox dim, Inside prototypes region point →
    Network.resume rest (layer.map (·.evaluate (values.map (·.evaluate point) ++
      gates.map fun gate => Network.gate (gate.form.evaluate point)))) = target point ∧
    ∀ gate ∈ gates, ∀ sign, gate.position.sign? = some sign → sign.admits (gate.form.evaluate point) 0 = true

/-- Every piece of a slot agrees with the slot's output. -/
def Partition.Reproduces (dim : Nat) (outputs : List Nat) (target : List ℚ → List ℚ)
    (partition : Partition ℚ) : Prop :=
  ∀ (place output : Nat) (slot : List Piece), outputs[place]? = some output →
    partition.pieces[place]? = some slot →
      ∀ piece ∈ slot, piece.Cuts dim partition.prototypes fun point => (target point).getD output 0

theorem Partition.Reproduces.grow {outputs : List Nat} {slots : Nat} {partition : Partition ℚ}
    (h : partition.Reproduces dim outputs target) (hformed : partition.WellFormed dim slots)
    {extended : List (Affine ℚ)} (hextended : partition.prototypes <+: extended) :
    (⟨extended, partition.pieces⟩ : Partition ℚ).Reproduces dim outputs target := by
  intro place output slot houtput hslot piece hpiece
  refine (h place output slot houtput hslot piece hpiece).congr rfl ?_
  exact ((hformed.pieces slot (List.mem_of_getElem? hslot) piece hpiece).2).sides_eq hextended

namespace TracksGates

variable {layer : Layer ℚ} {rest : List (Layer ℚ)} {values : List (Affine ℚ)} {gate : Gate ℚ}
  {gates : List (Gate ℚ)} {region : List Boundary} {prototypes : List (Affine ℚ)} {sign : Sign}

/-- A gate whose boundary holds, or whose position tells its sign, passes on what the search says it does. -/
theorem resolve {narrowed : List Boundary}
    (h : TracksGates dim target layer rest (gate :: gates) values region prototypes)
    (hregion : ∀ {point}, Inside prototypes narrowed point → Inside prototypes region point)
    (hsign : ∀ point ∈ unitBox dim, Inside prototypes narrowed point →
      sign.admits (gate.form.evaluate point) 0 = true) :
    TracksGates dim target layer rest gates (values ++ [gate.output sign]) narrowed prototypes := by
  intro point hbox hpoint
  obtain ⟨hvalue, hgates⟩ := h point hbox (hregion hpoint)
  refine ⟨?_, fun other hother => hgates other (List.mem_cons_of_mem _ hother)⟩
  rw [List.map_append, List.map_singleton, Gate.evaluate_output (hsign point hbox hpoint), List.append_assoc,
    List.singleton_append]
  rw [List.map_cons] at hvalue
  exact hvalue

theorem fixed (h : TracksGates dim target layer rest (gate :: gates) values region prototypes)
    (hsign : gate.position.sign? = some sign) :
    TracksGates dim target layer rest gates (values ++ [gate.output sign]) region prototypes :=
  h.resolve id fun point hbox hpoint => (h point hbox hpoint).2 gate List.mem_cons_self sign hsign

end TracksGates

namespace Search

variable {search : Search ℚ} {layer : Layer ℚ} {rest : List (Layer ℚ)} {forms values : List (Affine ℚ)}
  {gate : Gate ℚ} {gates : List (Gate ℚ)} {region : List Boundary} {state after : Partition ℚ}

/-- A point of a narrowed region lies in the region and on the side of the gate. -/
theorem Pending.inside_cut_iff (hpending : search.Pending layer rest (gate :: gates) values region state)
    {sign : Sign} {point : List ℚ} :
    Inside state.prototypes (region ++ [gate.boundary sign]) point ↔
      Inside state.prototypes region point ∧ sign.admits (gate.form.evaluate point) 0 = true := by
  obtain ⟨hlength, hform⟩ := hpending.known gate List.mem_cons_self
  rw [inside_append]
  exact and_congr_right fun _ => inside_singleton hform hlength sign

theorem Pending.tracks_cut (hpending : search.Pending layer rest (gate :: gates) values region state)
    (sign : Sign)
    (h : TracksGates search.dim target layer rest (gate :: gates) values region state.prototypes) :
    TracksGates search.dim target layer rest gates (values ++ [gate.output sign])
      (region ++ [gate.boundary sign]) state.prototypes :=
  h.resolve (fun hpoint => (hpending.inside_cut_iff.mp hpoint).1)
    fun _ _ hpoint => (hpending.inside_cut_iff.mp hpoint).2

theorem Pending.tracks_grow (hpending : search.Pending layer rest gates values region state)
    (hextends : after.Extends state)
    (h : TracksGates search.dim target layer rest gates values region state.prototypes) :
    TracksGates search.dim target layer rest gates values region after.prototypes :=
  fun point hbox hpoint => h point hbox ((hpending.refers.inside_iff hextends.prototypes).mp hpoint)

theorem Pending.tracks_done (hpending : search.Pending layer rest [] values region state)
    (h : TracksGates search.dim target layer rest [] values region state.prototypes) :
    Tracks search.dim target rest (layer.map (compose search.dim values)) region state.prototypes := by
  intro point hbox hpoint
  obtain ⟨hvalue, -⟩ := h point hbox hpoint
  rw [List.map_nil, List.append_nil] at hvalue
  rw [← hvalue, List.map_map]
  refine congrArg (Network.resume rest) (List.map_congr_left fun node _ => ?_)
  exact evaluate_compose hpending.shaped node point

/-- An exact oracle gives every gate a position that tells its sign. -/
theorem Ready.tracks_classified (hexact : search.oracle.Exact search.dim)
    (hready : search.Ready (layer :: rest) forms region state)
    (hgates : search.classify (state.prototypes ++ forms) forms region state.prototypes.length = .ok gates)
    (h : Tracks search.dim target (layer :: rest) forms region state.prototypes) :
    TracksGates search.dim target layer rest gates [] region (state.prototypes ++ forms) := by
  obtain ⟨constraints, hconstraints, hforms, hplaces⟩ := classify_spec hgates
  have hshape := (hready.wellFormed.extend hready.shaped).shaped
  intro point hbox hpoint
  refine ⟨?_, fun gate hgate sign hsign => ?_⟩
  · have hvalue := h point hbox ((hready.refers.inside_iff (List.prefix_append _ _)).mp hpoint)
    rw [Network.resume, ← hforms, List.map_map, List.map_map] at hvalue
    exact hvalue
  · obtain ⟨place, hplace⟩ := List.mem_iff_getElem?.mp hgate
    obtain ⟨-, hposition⟩ := hplaces place gate hplace
    have hlength := ((hready.classified hgates).known gate hgate).1
    have hmem : point ∈ feasible search.dim constraints :=
      (mem_feasible_iff hshape hconstraints).mpr ⟨hbox, hpoint⟩
    obtain ⟨hover, hunder⟩ := hexact.position_sound hlength (hshape.uniform hconstraints) hposition
    rcases hp : gate.position <;> rw [hp] at hsign <;> cases hsign
    · exact (Sign.admits_leq _).mpr (hunder hp point hmem)
    · exact (Sign.admits_geq _).mpr (hover hp point hmem)

/-! ### Leaves -/

/-- The candidates on a region agree with a value that the output's form has there. -/
theorem Placed.cuts {output first : Nat} {known final : List (Affine ℚ)} {value : List ℚ → ℚ}
    (h : search.Placed forms first output known final) (hforms : Shaped search.dim forms)
    (hvalue : ∀ point ∈ unitBox search.dim, Inside final region point →
      value point = (forms.getD output (.zero search.dim)).evaluate point) :
    ∀ piece ∈ Search.candidates search.dim (forms.getD output (.zero search.dim)) region (first + output)
      known.length, piece.Cuts search.dim final value := by
  have hlength := Affine.length_getD hforms output
  have hlength' := (Affine.length_minusOne (forms.getD output (.zero search.dim))).trans hlength
  have hraw : ∀ sign point, Inside final [⟨first + output, sign⟩] point ↔
      sign.admits ((forms.getD output (.zero search.dim)).evaluate point) 0 = true :=
    fun sign point => inside_singleton h.raw hlength sign
  have hupper : ∀ sign point, Inside final [⟨known.length, sign⟩] point ↔
      sign.admits ((forms.getD output (.zero search.dim)).evaluate point - 1) 0 = true := by
    intro sign point
    rw [inside_singleton h.upper hlength' sign, Affine.evaluate_minusOne hlength]
  intro piece hpiece
  rcases mem_candidates.mp hpiece with rfl | rfl | rfl
  · refine .zero rfl fun point hbox hpoint => ?_
    obtain ⟨hregion, hsign⟩ := inside_append.mp hpoint
    rw [hvalue point hbox hregion]
    exact (Sign.admits_leq _).mp ((hraw .leq point).mp hsign)
  · refine .affine _ ⟨rfl, sides final region, ?_⟩ hlength fun point hbox hpoint => ?_
    · rw [sides, List.map_append, ← h.raw, ← h.upper]
      rfl
    · obtain ⟨hregion, hsigns⟩ := inside_append.mp hpoint
      obtain ⟨hgeq, hleq⟩ := inside_cons.mp hsigns
      have hzero := (Sign.admits_geq _).mp ((hraw .geq point).mp hgeq)
      have hone := (Sign.admits_leq _).mp ((hupper .leq point).mp hleq)
      rw [hvalue point hbox hregion]
      exact ⟨rfl, hzero, by linarith⟩
  · refine .one rfl fun point hbox hpoint => ?_
    obtain ⟨hregion, hsign⟩ := inside_append.mp hpoint
    rw [hvalue point hbox hregion]
    linarith [(Sign.admits_geq _).mp ((hupper .geq point).mp hsign)]

theorem Ready.reproduces_leaf {final : List (Affine ℚ)} {slots : List (List Piece)}
    (hready : search.Ready [] forms region state)
    (hemit : search.emit forms state.prototypes.length region search.outputs (state.prototypes ++ forms) =
      .ok (final, slots))
    (htracks : Tracks search.dim target [] forms region state.prototypes)
    (h : state.Reproduces search.dim search.outputs target) :
    (⟨final, appendSlots state.pieces slots⟩ : Partition ℚ).Reproduces search.dim search.outputs target := by
  have hgrow := prefix_of_emit hemit
  intro place output slot houtput hslot piece hpiece
  obtain ⟨held, added, _, hheld, houtput', rfl, known, hknown, hafter, hkeep⟩ := hready.leaf_slot hemit hslot
  cases houtput.symm.trans houtput'
  rcases List.mem_append.mp hpiece with hpiece | hpiece
  · exact h.grow hready.wellFormed hgrow place output held houtput hheld piece hpiece
  · have hplaced := hready.placed (List.mem_of_getElem? houtput) hknown hafter
    refine hplaced.cuts hready.shaped (fun point hbox hpoint => ?_) piece
      ((mem_of_keepFeasible _ hkeep).1 hpiece).1
    have hwidth : output < forms.length := hready.width output (List.mem_of_getElem? houtput)
    have hvalue := htracks point hbox ((hready.refers.inside_iff hgrow).mp hpoint)
    rw [← hvalue, Network.resume, List.getD_eq_getElem _ _ (by rwa [List.length_map]), List.getElem_map,
      List.getD_eq_getElem _ _ hwidth]

/-- Along a search with an exact oracle every emitted piece agrees with its output. -/
theorem shapedRules_reproduces (hexact : search.oracle.Exact search.dim) (target : List ℚ → List ℚ) :
    search.ShapedRules
      (fun layers forms region state result =>
        Tracks search.dim target layers forms region state.prototypes →
          state.Reproduces search.dim search.outputs target →
            result.Reproduces search.dim search.outputs target)
      (fun layer rest gates values region state result =>
        TracksGates search.dim target layer rest gates values region state.prototypes →
          state.Reproduces search.dim search.outputs target →
            result.Reproduces search.dim search.outputs target) where
  leaf hready hemit htracks h := hready.reproduces_leaf hemit htracks h
  layer hready hgates hresolved htracks h :=
    hresolved (hready.tracks_classified hexact hgates htracks)
      (h.grow hready.wellFormed (List.prefix_append _ _))
  done hpending hexplored htracks h := hexplored (hpending.tracks_done htracks) h
  fixed hpending hsign hresolved htracks h := hresolved (htracks.fixed hsign) h
  cut hpending _ hmiddle _ hformed hgeq hleq htracks h := by
    rcases hgeq with ⟨-, hopen⟩ | ⟨-, rfl⟩
    · have hfirst := hopen (hpending.tracks_cut .geq htracks) h
      rcases hleq with ⟨-, hclosed⟩ | ⟨-, rfl⟩
      · exact hclosed
          ((hpending.grow hformed hmiddle).tracks_cut .leq (hpending.tracks_grow hmiddle htracks)) hfirst
      · exact hfirst
    · rcases hleq with ⟨-, hclosed⟩ | ⟨-, rfl⟩
      · exact hclosed (hpending.tracks_cut .leq htracks) h
      · exact h

end Search

end ReluLogic
