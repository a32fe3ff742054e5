import ReluLogic.Proofs.Decomposition.Coefficients
import ReluLogic.Proofs.Lattice.Assembly
import ReluLogic.Proofs.Translation.Run

/-!
The translation from end to end. The pieces of a network cover the box and reproduce its outputs up to the rounding
of coefficients, their encodings have the values of the pieces, and the joins put these values together up to the
tolerance of the check; so the joins have the outputs of the network, cut off to the unit interval, up to both.
-/

namespace ReluLogic

theorem clamp_clamp (value : ℚ) : clamp (clamp value) = clamp value :=
  clamp_of_mem (clamp_nonneg value) (clamp_le_one value)

/-- The coefficients of a piece that agrees with an output have positive denominators. -/
theorem Piece.Cuts.proper {dim : Nat} {prototypes : List (Affine ℚ)} {value : List ℚ → ℚ} {piece : Piece}
    (h : piece.Cuts dim prototypes value) : piece.Proper := by
  rw [Proper]
  cases h with
  | zero heq _ =>
      rw [heq]
      exact Proper.zero dim piece.region
  | affine form hconverts _ _ =>
      rw [hconverts.1]
      exact Proper.ofDecimal form.coefficients piece.region
  | one heq _ =>
      rw [heq]
      exact Proper.one dim piece.region

/-- The form that a piece was converted from is one of the prototypes. -/
theorem Piece.Converts.mem_prototypes {α : Type} [Scalar α] {prototypes : List (Affine α)} {piece : Piece}
    {form : Affine α} (h : piece.Converts prototypes form) : form ∈ prototypes := by
  obtain ⟨-, region, hsides⟩ := h
  have hside : (some form, Sign.geq) ∈ sides prototypes piece.region := by
    rw [hsides]
    exact List.mem_append_right _ List.mem_cons_self
  obtain ⟨boundary, -, hboundary⟩ := List.mem_map.mp hside
  exact List.mem_of_getElem? (Prod.mk.inj hboundary).1

namespace Translator

open Encoding

variable {translator : Translator ℚ} {network : Network ℚ} {outputs : List Nat}

/-- The pieces that a translation starts from are those of a faithful decomposition. -/
theorem faithful_of_decompose (hexact : translator.oracle.Exact network.inputDim) {decomposition : Decomposition ℚ}
    (h : translator.decompose network outputs = .ok decomposition) :
    network.inputDim = translator.dim ∧ network.requestedOutputs outputs = .ok decomposition.outputs ∧
      decomposition.Faithful network := by
  obtain ⟨_, hdim, h⟩ := bind_eq_ok.mp h
  rw [checkDim] at hdim
  split_ifs at hdim with hsame
  refine ⟨not_not.mp hsame, ?_⟩
  split_ifs at h
  · exact Network.faithful_of_decomposeParallel hexact h
  · obtain ⟨requested, hrequested, h⟩ := bind_eq_ok.mp h
    rw [(Network.decomposeOutputs_eq_ok h).1]
    exact ⟨hrequested, Network.faithful_of_decomposeOutputs hexact (Network.lt_of_requestedOutputs hrequested) h⟩

variable {translation : Translation ℚ} {after : Allocator} {point : List ℚ} {valuation : Nat → ℚ}

/-- The requests for the pieces of a faithful decomposition are proper. -/
theorem proper_requests {decomposition : Decomposition ℚ} (h : decomposition.Faithful network) :
    ∀ made ∈ decomposition.slots.flatMap fun slot => slot.2.flatMap fun piece => [request piece],
      made.Proper network.inputDim := by
  intro made hmade
  obtain ⟨⟨output, pieces⟩, hslot, hmade⟩ := List.mem_flatMap.mp hmade
  obtain ⟨piece, hpiece, hmade⟩ := List.mem_flatMap.mp hmade
  cases List.mem_singleton.mp hmade
  obtain ⟨place, hplace⟩ := List.mem_iff_getElem?.mp hslot
  obtain ⟨houtput, hpieces⟩ := List.getElem?_zip_eq_some.mp hplace
  exact ⟨(h.wellFormed.pieces pieces (List.mem_of_getElem? hpieces) piece hpiece).1.le,
    (h.reproduces place output pieces houtput hpieces piece hpiece).proper⟩

/-- An output's join has the value of the network at a point where every encoding has the value of its piece. -/
theorem abs_lattice_sub_le (hexact : translator.oracle.Exact network.inputDim)
    (htolerance : 0 ≤ translator.config.latticeTolerance) {decomposition : Decomposition ℚ}
    (hfaithful : decomposition.Faithful network)
    (hforms : ∀ pieces ∈ decomposition.pieces, ∀ piece ∈ pieces, ∀ form,
      piece.Converts decomposition.prototypes form → form.Convertible)
    {place output : Nat} {pieces : List Piece} (houtput : decomposition.outputs[place]? = some output)
    (hpieces : decomposition.pieces[place]? = some pieces) {result : OutputTranslation}
    (hresult : translator.Translated decomposition.prototypes (output, pieces) result)
    (hpoint : point ∈ unitBox network.inputDim)
    (hvalues : ∀ (k : Nat) (piece : Piece) (modsat : Modsat), pieces[k]? = some piece →
      result.modsats[k]? = some modsat → modsat.phi.Denotes valuation (clamp (piece.evaluate point))) :
    ∃ degree, result.lattice.Denotes valuation degree ∧
      |degree - clamp ((Network.forward network.layers point).getD output 0)| ≤
        translator.config.latticeTolerance + (network.inputDim + 1) / (2 * Fraction.precision) := by
  obtain ⟨table, hcheck, hassemble⟩ := hresult.join
  have hmem : pieces ∈ decomposition.pieces := List.mem_of_getElem? hpieces
  have hformed : (translator.family decomposition.prototypes pieces).WellFormed network.inputDim :=
    ⟨hfaithful.wellFormed.shaped, fun piece hpiece => (hfaithful.wellFormed.pieces pieces hmem piece hpiece).1⟩
  obtain ⟨piece, hpiece, hinside⟩ := hfaithful.covers point hpoint
    (fun _ hnone => absurd hnone List.not_mem_nil) pieces hmem
  obtain ⟨j, hj⟩ := List.mem_iff_getElem?.mp hpiece
  have hcarries : (translator.family decomposition.prototypes pieces).Carries clamp point valuation
      (result.modsats.map Modsat.phi) := by
    intro k other formula hother hformula
    rw [List.getElem?_map, Option.map_eq_some_iff] at hformula
    obtain ⟨modsat, hmodsat, rfl⟩ := hformula
    exact hvalues k other modsat hother hmodsat
  obtain ⟨degree, hdegree, hjoined⟩ := PieceFamily.exists_lattice_denotes hexact.maximizes hformed htolerance hcheck
    hassemble (fun _ _ hle => clamp_mono hle) (fun a => clamp_add_le htolerance) hpoint hcarries hj hinside
  have hrounded := (hfaithful.reproduces place output pieces houtput hpieces piece hpiece).abs_evaluate_sub_le
    (hforms pieces hmem piece hpiece) hpoint hinside
  have hcut := (abs_clamp_sub_clamp_le (piece.evaluate point)
    (clamp ((Network.forward network.layers point).getD output 0))).trans hrounded
  rw [clamp_clamp] at hcut
  refine ⟨degree, hdegree, ?_⟩
  calc |degree - clamp ((Network.forward network.layers point).getD output 0)|
      ≤ |degree - clamp (piece.evaluate point)| +
          |clamp (piece.evaluate point) - clamp ((Network.forward network.layers point).getD output 0)| :=
        abs_sub_le _ _ _
    _ ≤ translator.config.latticeTolerance + (network.inputDim + 1) / (2 * Fraction.precision) :=
        add_le_add hjoined hcut

/-- Under a valuation that satisfies the defining formulas of a translation, every formula has the value of its
piece. -/
theorem denotes_of_satisfies {dim : Nat} {calls : List Call}
    (h : calls = [] ∨ dim ≤ variableMax ∧ Answers (.ofDim dim) after calls) (hmax : after.counter ≤ variableMax)
    (hunit : UnitValued valuation) (hpoint : inputPoint dim valuation = point)
    (hsatisfies : Formula.Satisfies valuation (defining calls)) {piece : Piece} {modsat : Modsat}
    (hlength : piece.coefficients.length ≤ dim + 1) (hcall : ⟨piece.coefficients, modsat⟩ ∈ calls) :
    modsat.phi.Denotes valuation (clamp (piece.evaluate point)) := by
  rcases h with rfl | ⟨-, hanswers⟩
  · exact absurd hcall List.not_mem_nil
  · have hvalue := hanswers.denotes hmax hunit (Allocator.meaning_ofDim dim valuation) hsatisfies _ hcall
    rw [affineFrom_zero_eq hlength, hpoint] at hvalue
    exact hvalue

/-- With an exact oracle and the lattice check a translation that succeeds computes the network. At every point of
the box, a valuation that carries the point and under which all defining formulas hold gives the join of each
requested output the output of the network, cut off to the unit interval, up to the tolerance of the check and half
a millionth per coefficient; and there is such a valuation. The forms that are converted to decimals have to be
within the range of the conversion, and the variables within theirs. -/
theorem translate_computes_network (translator : Translator ℚ) (network : Network ℚ) (outputs : List Nat)
    (hexact : translator.oracle.Exact network.inputDim) (hcheck : translator.config.checkLattice = true)
    (htolerance : 0 ≤ translator.config.latticeTolerance) {translation : Translation ℚ} {after : Allocator}
    (hrun : (translator.translate network outputs).run.run (.ofDim translator.dim) = (.ok translation, after))
    (hmax : after.counter ≤ variableMax)
    (hforms : ∀ pieces ∈ translation.decomposition.pieces, ∀ piece ∈ pieces, ∀ form,
      piece.Converts translation.decomposition.prototypes form → form.Convertible) :
    network.requestedOutputs outputs = .ok (translation.outputs.map OutputTranslation.output) ∧
    ∀ point ∈ unitBox network.inputDim,
      (∀ valuation, UnitValued valuation → inputPoint network.inputDim valuation = point →
        (∀ result ∈ translation.outputs, ∀ formula ∈ result.defining, formula.evaluate valuation = .ok (some 1)) →
          ∀ result ∈ translation.outputs, ∃ values value degree, network.evaluate point = .ok values ∧
            values[result.output]? = some value ∧ result.lattice.evaluate valuation = .ok (some degree) ∧
            |degree - min 1 (max 0 value)| ≤
              translator.config.latticeTolerance + (network.inputDim + 1) / (2 * 10 ^ 6)) ∧
      ∃ valuation, UnitValued valuation ∧ inputPoint network.inputDim valuation = point ∧
        ∀ result ∈ translation.outputs, ∀ formula ∈ result.defining, formula.evaluate valuation = .ok (some 1) := by
  obtain ⟨hdecomposition, -, hserve, hmade⟩ := serveAll_of_translate hcheck hrun
  obtain ⟨hdim, hrequested, hfaithful⟩ := faithful_of_decompose hexact hdecomposition
  rw [← hdim] at hserve
  have hanswers := answers_ofDim (proper_requests hfaithful) hserve hmax
  have hdefining : ∀ valuation, Formula.Satisfies valuation (defining (allCalls translation.decomposition.slots
      translation.outputs)) ↔ ∀ result ∈ translation.outputs, ∀ formula ∈ result.defining,
        formula.evaluate valuation = .ok (some 1) := by
    intro valuation
    rw [defining_allCalls (hmade.imp fun _ _ hown => hown.length_eq)]
    exact List.forall_mem_flatMap
  have houtputs : translation.outputs.map OutputTranslation.output = translation.decomposition.outputs :=
    (map_output_eq hmade).trans (List.map_fst_zip hfaithful.wellFormed.length_eq.ge)
  refine ⟨houtputs.symm ▸ hrequested, fun point hpoint => ⟨?_, ?_⟩⟩
  · intro valuation hunit hinputs hholds result hresult
    have hsatisfies := (hdefining valuation).mpr hholds
    obtain ⟨place, hplace⟩ := List.mem_iff_getElem?.mp hresult
    obtain ⟨⟨output, pieces⟩, hslot, hown⟩ := exists_slot hmade hplace
    obtain rfl : result.output = output := hown.output_eq
    obtain ⟨houtput, hpieces⟩ := List.getElem?_zip_eq_some.mp hslot
    have hvalues : ∀ (k : Nat) (piece : Piece) (modsat : Modsat), pieces[k]? = some piece →
        result.modsats[k]? = some modsat → modsat.phi.Denotes valuation (clamp (piece.evaluate point)) := by
      intro k piece modsat hpiece hmodsat
      refine denotes_of_satisfies hanswers hmax hunit hinputs hsatisfies ?_
        (mem_allCalls hslot hplace (mem_calls.mpr ⟨k, piece, hpiece, hmodsat, rfl⟩))
      exact (hfaithful.wellFormed.pieces pieces (List.mem_of_getElem? hpieces) piece
        (List.mem_of_getElem? hpiece)).1.le
    obtain ⟨degree, hdegree, hbound⟩ := abs_lattice_sub_le hexact htolerance hfaithful hforms houtput hpieces hown
      hpoint hvalues
    obtain ⟨values, hevaluate, hvalue⟩ := network.exists_evaluate_eq hpoint.1
      (hfaithful.outputs result.output (List.mem_of_getElem? houtput))
    refine ⟨values, _, degree, hevaluate, hvalue, hdegree, ?_⟩
    norm_num only [Fraction.precision] at hbound ⊢
    exact hbound
  · obtain ⟨valuation, hunit, hinputs, hsatisfies⟩ := exists_satisfies hanswers hmax hpoint
    exact ⟨valuation, hunit, hinputs, (hdefining valuation).mp hsatisfies⟩

/-- A translator for one input that joins pieces on two workers. -/
def paired : Translator ℚ :=
  ⟨1, .standard, Interval.oracle, 2⟩

/-- At three quarters the shifted gate has the value one quarter. -/
theorem translate_computes_network_shifted :
    ∃ translation after, (paired.translate .shifted [0]).run.run (.ofDim 1) = (.ok translation, after) ∧
      translation.outputs.map OutputTranslation.output = [0] ∧
      ∃ valuation, inputPoint 1 valuation = [3 / 4] ∧ ∀ result ∈ translation.outputs, ∃ degree,
        result.lattice.evaluate valuation = .ok (some degree) ∧ |degree - 1 / 4| ≤ 11 / 10 ^ 6 := by
  have hprototypes : ((paired.translate .shifted [0]).run.run (.ofDim 1)).1.toOption.map
      (fun translation => translation.decomposition.prototypes) = some
        [⟨[-1 / 2, 1]⟩, ⟨[-1 / 2, 1]⟩, ⟨[-3 / 2, 1]⟩, ⟨[0, 0]⟩, ⟨[-1, 0]⟩] := by
    decide +kernel
  have hcounter : ((paired.translate .shifted [0]).run.run (.ofDim 1)).2.counter = 5 := by decide +kernel
  rcases hrun : (paired.translate .shifted [0]).run.run (.ofDim 1) with ⟨error | translation, after⟩ <;>
    rw [hrun] at hprototypes hcounter
  · cases hprototypes
  · have hconvertible : ∀ form ∈ translation.decomposition.prototypes, form.Convertible := by
      rw [show translation.decomposition.prototypes = _ from Option.some.inj hprototypes]
      norm_num [Affine.Convertible, Convertible, Fraction.precision, int64Max]
    obtain ⟨houtputs, hpoints⟩ := translate_computes_network paired .shifted [0] Interval.oracle_exact rfl
      (by decide +kernel) hrun (hcounter.trans_le (by decide))
      fun _ _ _ _ form hconverts => hconvertible form hconverts.mem_prototypes
    have hpoint : [3 / 4] ∈ unitBox Network.shifted.inputDim := ⟨rfl, by norm_num⟩
    obtain ⟨hforced, valuation, hunit, hinputs, hholds⟩ := hpoints [3 / 4] hpoint
    have hrequested : Network.shifted.requestedOutputs [0] = .ok [0] := by decide +kernel
    have heval : Network.shifted.evaluate [3 / 4] = .ok [1 / 4] := by decide +kernel
    have hsame : translation.outputs.map OutputTranslation.output = [0] :=
      Except.ok.inj (houtputs.symm.trans hrequested)
    refine ⟨translation, after, rfl, hsame, valuation, hinputs, fun result hresult => ?_⟩
    obtain ⟨values, value, degree, hvalues, hvalue, hdegree, hbound⟩ :=
      hforced valuation hunit hinputs hholds result hresult
    have houtput : result.output ∈ [0] := hsame ▸ List.mem_map_of_mem hresult
    rw [List.mem_singleton.mp houtput] at hvalue
    cases hvalues.symm.trans heval
    cases hvalue
    have hslack : paired.config.latticeTolerance + (Network.shifted.inputDim + 1) / (2 * 10 ^ 6) =
        (11 / 10 ^ 6 : ℚ) := by
      decide +kernel
    have hclamp : min 1 (max 0 (1 / 4)) = (1 / 4 : ℚ) := by norm_num
    rw [hslack, hclamp] at hbound
    exact ⟨degree, hdegree, hbound⟩

end Translator

end ReluLogic
