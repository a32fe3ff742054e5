import ReluLogic.Proofs.Decomposition.Covering
import ReluLogic.Proofs.LinearProgram.Interval

/-!
The search over a whole network. With an exact oracle the decomposition covers the box with pieces that
reproduce the outputs, cut off to the unit interval and up to the rounding of coefficients.
-/

namespace ReluLogic

/-- The prototypes and pieces of a decomposition as those of one search. -/
def Decomposition.partition {α : Type} (decomposition : Decomposition α) : Partition α :=
  ⟨decomposition.prototypes, decomposition.pieces⟩

/-- A decomposition whose pieces cover the box for outputs of a network. -/
structure Decomposition.Complete (network : Network ℚ) (decomposition : Decomposition ℚ) : Prop where
  outputs : ∀ output ∈ decomposition.outputs, output < network.outputDim
  wellFormed : decomposition.partition.WellFormed network.inputDim decomposition.outputs.length
  covers : Covers network.inputDim [] [] decomposition.partition

/-- A decomposition whose pieces also agree with these outputs. -/
structure Decomposition.Faithful (network : Network ℚ) (decomposition : Decomposition ℚ) : Prop
    extends Decomposition.Complete network decomposition where
  reproduces : decomposition.partition.Reproduces network.inputDim decomposition.outputs
    (Network.forward network.layers)

namespace Network

theorem decomposeOutputs_eq_ok {α : Type} [Scalar α] {network : Network α} {oracle : Oracle α}
    {outputs : List Nat} {decomposition : Decomposition α}
    (h : network.decomposeOutputs oracle outputs = .ok decomposition) :
    decomposition.outputs = outputs ∧
      (network.search oracle outputs).descend network.layers.tail network.firstForms []
        (.start [] outputs.length) = .ok decomposition.partition := by
  obtain ⟨-, -, h⟩ := bind_eq_ok.mp h
  obtain ⟨found, hfound, h⟩ := bind_eq_ok.mp h
  cases h
  exact ⟨rfl, hfound⟩

variable {network : Network ℚ} {oracle : Oracle ℚ} {outputs : List Nat}

theorem length_forward (first : Layer ℚ) (rest : List (Layer ℚ)) (input : List ℚ) :
    (forward (first :: rest) input).length = lastWidth rest first.length := by
  rw [forward_cons]
  have hresume : ∀ (rest : List (Layer ℚ)) (values : List ℚ),
      (resume rest values).length = lastWidth rest values.length := by
    intro rest
    induction rest with
    | nil => exact fun _ => rfl
    | cons layer rest ih =>
        intro values
        rw [resume, ih, List.length_map, lastWidth]
  rw [hresume, List.length_map]

/-- A network has a value for each of its outputs at every point with the right number of inputs. -/
theorem exists_evaluate_eq {point : List ℚ} (hpoint : point.length = network.inputDim) {output : Nat}
    (houtput : output < network.outputDim) :
    ∃ values, network.evaluate point = .ok values ∧
      values[output]? = some ((forward network.layers point).getD output 0) := by
  refine ⟨forward network.layers point, ?_, ?_⟩
  · rw [evaluate, if_neg (not_not.mpr hpoint)]
    rfl
  · obtain ⟨first, rest, hlayers, -⟩ := network.exists_layers_eq
    have hlength : output < (forward network.layers point).length := by
      rw [outputDim, hlayers, ← lastWidth_eq] at houtput
      rw [hlayers, length_forward]
      exact houtput
    rw [List.getElem?_eq_getElem hlength, List.getD_eq_getElem _ _ hlength]

/-- At its first layer the search tracks the outputs of the network. -/
theorem tracks_firstForms (network : Network ℚ) :
    Tracks network.inputDim (forward network.layers) network.layers.tail network.firstForms [] [] := by
  obtain ⟨first, rest, hlayers, -⟩ := network.exists_layers_eq
  intro point _ _
  rw [firstForms, hlayers, List.headD_cons, List.tail_cons, forward_cons, List.map_map]
  rfl

theorem reproduces_start {dim : Nat} {target : List ℚ → List ℚ} (prototypes : List (Affine ℚ))
    (outputs : List Nat) :
    (Partition.start prototypes outputs.length).Reproduces dim outputs target := by
  intro place output slot _ hslot piece hpiece
  rw [List.eq_of_mem_replicate (List.mem_of_getElem? hslot)] at hpiece
  exact absurd hpiece List.not_mem_nil

/-- The search covers the box whenever its oracle calls no region with points in it empty. -/
theorem complete_of_decomposeOutputs (hpermissive : oracle.Permissive network.inputDim)
    (houtputs : ∀ output ∈ outputs, output < network.outputDim) {decomposition : Decomposition ℚ}
    (h : network.decomposeOutputs oracle outputs = .ok decomposition) :
    decomposition.Complete network := by
  obtain ⟨rfl, hdescend⟩ := decomposeOutputs_eq_ok h
  have hsearch : (network.search oracle decomposition.outputs).oracle.Permissive
      (network.search oracle decomposition.outputs).dim := hpermissive
  obtain ⟨hformed, hcovers⟩ :=
    (Search.shapedRules_covers hsearch).descend (network.ready oracle houtputs) hdescend
  exact ⟨houtputs, hformed, hcovers⟩

theorem faithful_of_decomposeOutputs (hexact : oracle.Exact network.inputDim)
    (houtputs : ∀ output ∈ outputs, output < network.outputDim) {decomposition : Decomposition ℚ}
    (h : network.decomposeOutputs oracle outputs = .ok decomposition) :
    decomposition.Faithful network := by
  refine ⟨complete_of_decomposeOutputs hexact.permissive houtputs h, ?_⟩
  obtain ⟨rfl, hdescend⟩ := decomposeOutputs_eq_ok h
  have hsearch : (network.search oracle decomposition.outputs).oracle.Exact
      (network.search oracle decomposition.outputs).dim := hexact
  obtain ⟨-, hreproduces⟩ := (Search.shapedRules_reproduces hsearch (forward network.layers)).descend
    (network.ready oracle houtputs) hdescend
  exact hreproduces network.tracks_firstForms (reproduces_start [] _)

/-- The box has a point, so an exact oracle finds it non-empty. -/
theorem isFeasible_box {dim : Nat} (hexact : oracle.Exact dim) : oracle.isFeasible dim [] = .ok true := by
  have huniform : Uniform dim ([] : List (Constraint ℚ)) := fun _ hmem => absurd hmem List.not_mem_nil
  have hpoint : List.replicate dim 0 ∈ feasible dim [] := by
    refine ⟨⟨List.length_replicate, fun value hvalue => ?_⟩, fun _ hmem => absurd hmem List.not_mem_nil⟩
    rw [List.eq_of_mem_replicate hvalue]
    exact ⟨le_rfl, zero_le_one⟩
  rcases hexact.isFeasible_eq huniform with ⟨hfound, -⟩ | ⟨-, hempty⟩
  · exact hfound
  · rw [hempty] at hpoint
    exact absurd hpoint (Set.notMem_empty _)

theorem exists_decompose_eq (hexact : oracle.Exact network.inputDim)
    (houtputs : ∀ output ∈ outputs, output < network.outputDim) :
    ∃ decomposition, network.decompose oracle outputs = .ok decomposition ∧
      network.requestedOutputs outputs = .ok decomposition.outputs ∧ decomposition.Faithful network := by
  have hrequested := requestedOutputs_eq_ok.mpr ⟨houtputs, rfl⟩
  obtain ⟨decomposition, hdecomposition⟩ := network.exists_decomposeOutputs_eq hexact.coherent
    (isFeasible_box hexact) (lt_of_requestedOutputs hrequested)
  refine ⟨decomposition, bind_eq_ok.mpr ⟨_, hrequested, hdecomposition⟩, ?_,
    faithful_of_decomposeOutputs hexact (lt_of_requestedOutputs hrequested) hdecomposition⟩
  rw [(decomposeOutputs_eq_ok hdecomposition).1, hrequested]

/-- With an exact oracle a network is decomposed for all outputs that it has, and a piece gives at every point
of its region the output of its slot, cut off to the unit interval. The two differ by at most half a millionth
per coefficient where the piece's form is within the range of the decimal conversion, and not at all where the
coefficients of that form are multiples of a millionth. -/
theorem decompose_reproduces (network : Network ℚ) {oracle : Oracle ℚ} (hexact : oracle.Exact network.inputDim)
    {outputs : List Nat} (houtputs : ∀ output ∈ outputs, output < network.outputDim) :
    ∃ decomposition, network.decompose oracle outputs = .ok decomposition ∧
      network.requestedOutputs outputs = .ok decomposition.outputs ∧
      decomposition.pieces.length = decomposition.outputs.length ∧
      ∀ (slot output : Nat) (pieces : List Piece), decomposition.outputs[slot]? = some output →
        decomposition.pieces[slot]? = some pieces → ∀ piece ∈ pieces, ∀ point ∈ unitBox network.inputDim,
          piece.contains decomposition.prototypes point 0 = true →
            ∃ values value found, network.evaluate point = .ok values ∧ values[output]? = some value ∧
              piece.evaluate? point = some found ∧
              ((∀ form, piece.Converts decomposition.prototypes form → form.Convertible) →
                |found - clamp value| ≤ (network.inputDim + 1) / (2 * 10 ^ 6)) ∧
              ((∀ form, piece.Converts decomposition.prototypes form → form.Convertible ∧ form.IsDecimal) →
                found = clamp value) := by
  obtain ⟨decomposition, hrun, hrequested, hfaithful⟩ := exists_decompose_eq hexact houtputs
  refine ⟨decomposition, hrun, hrequested, hfaithful.wellFormed.length_eq, ?_⟩
  intro slot output pieces houtput hpieces piece hpiece point hbox hcontains
  have hcuts := hfaithful.reproduces slot output pieces houtput hpieces piece hpiece
  have hinside := Piece.contains_iff_inside.mp hcontains
  obtain ⟨values, hvalues, hvalue⟩ := network.exists_evaluate_eq hbox.1
    (hfaithful.outputs output (List.mem_of_getElem? houtput))
  have hlength : (piece.form : Affine ℚ).coefficients.length = network.inputDim + 1 :=
    (List.length_map _).trans (hfaithful.wellFormed.pieces pieces (List.mem_of_getElem? hpieces) piece hpiece).1
  refine ⟨values, _, _, hvalues, hvalue, Affine.evaluate?_eq_some (List.ne_nil_of_length_eq_add_one hlength) point,
    fun hforms => ?_, fun hforms => ?_⟩
  · have hbound := hcuts.abs_evaluate_sub_le hforms hbox hinside
    norm_num only [Fraction.precision] at hbound ⊢
    exact hbound
  · exact hcuts.evaluate_eq hforms hbox hinside

/-- The network `x ↦ max (x - 1/2) 0`. -/
def shifted : Network ℚ :=
  ⟨[[⟨-1 / 2, [1]⟩], [⟨0, [1]⟩]], rfl⟩

/-- On the region where the gate is open the piece `x - 1/2` is exact. -/
theorem decompose_reproduces_shifted :
    (⟨[⟨-1, 2⟩, .one], [.geq 0, .geq 1, .leq 2]⟩ : Piece).evaluate? [3 / 4] = some (clamp (1 / 4)) := by
  have houtputs : ∀ output ∈ [0], output < shifted.outputDim := by decide
  obtain ⟨decomposition, hrun, -, -, hpieces⟩ := decompose_reproduces shifted Interval.oracle_exact houtputs
  have hresult : shifted.decompose Interval.oracle [0] = .ok
      ⟨[⟨[-1 / 2, 1]⟩, ⟨[-1 / 2, 1]⟩, ⟨[-3 / 2, 1]⟩, ⟨[0, 0]⟩, ⟨[-1, 0]⟩], [0],
        [[.zero 1 [.geq 0, .leq 1], ⟨[⟨-1, 2⟩, .one], [.geq 0, .geq 1, .leq 2]⟩, .zero 1 [.leq 0, .leq 3],
          .zero 1 [.leq 0, .geq 3, .leq 4]]]⟩ := by
    decide +kernel
  cases hrun.symm.trans hresult
  obtain ⟨values, value, found, hvalues, hvalue, hfound, -, hexact⟩ := hpieces 0 0 _ rfl rfl _
    (List.mem_cons_of_mem _ List.mem_cons_self) [3 / 4] ⟨rfl, by norm_num⟩ (by decide +kernel)
  have heval : shifted.evaluate [3 / 4] = .ok [1 / 4] := by decide +kernel
  cases hvalues.symm.trans heval
  cases hvalue
  rw [hfound, hexact fun form hconverts => ?_]
  obtain ⟨region, hsides⟩ := hconverts.2
  have hends : [(some (⟨[-1 / 2, 1]⟩ : Affine ℚ), Sign.geq), (some ⟨[-3 / 2, 1]⟩, .leq)] =
      [(some form, .geq), (some form.minusOne, .leq)] :=
    List.append_inj_right' (show [(some ⟨[-1 / 2, 1]⟩, Sign.geq)] ++ _ = region ++ _ from hsides) rfl
  have hform : some form = some ⟨[-1 / 2, 1]⟩ := congrArg Prod.fst (List.cons.inj hends).1.symm
  cases hform
  constructor
  · norm_num [Affine.Convertible, Convertible, Fraction.precision, int64Max]
  · exact List.forall_mem_cons.mpr ⟨⟨-500000, by norm_num [Fraction.precision]⟩,
      List.forall_mem_singleton.mpr ⟨1000000, by norm_num [Fraction.precision]⟩⟩

end Network

end ReluLogic
