import ReluLogic.Proofs.Text.RoundTrip
import ReluLogic.Proofs.Translation.EndToEnd

/-!
The dump of an output translates like the network it came from. Whatever the oracle answers, the pieces that a
translation starts from have the number of inputs of the network, name prototypes that are there and have coefficients
in lowest terms, so their dump is regular and reads back. Translating what was read then makes the same calls in the
same order, from the same allocator.
-/

namespace ReluLogic

open Encoding

variable {α : Type} [Scalar α]

theorem Fraction.emitted_lowest (α : Type) [Scalar α] [Scalar.Held α] : Emitted α Lowest :=
  ⟨by decide, by decide, lowest_ofDecimal⟩

/-- Pieces over `dim` inputs that refer to their prototypes, for each of the outputs. -/
def Decomposition.WellFormed {α : Type} (dim : Nat) (decomposition : Decomposition α) : Prop :=
  (⟨decomposition.prototypes, decomposition.pieces⟩ : Partition α).WellFormed dim decomposition.outputs.length

namespace Network

variable {network : Network α} {oracle : Oracle α} {outputs : List Nat} {decomposition : Decomposition α}

theorem wellFormed_of_decomposeOutputs (houtputs : ∀ output ∈ outputs, output < network.outputDim)
    (h : network.decomposeOutputs oracle outputs = .ok decomposition) :
    decomposition.outputs = outputs ∧ decomposition.WellFormed network.inputDim := by
  obtain ⟨rfl, hdescend⟩ := decomposeOutputs_eq_ok h
  exact ⟨rfl, ((Search.shapedRules_true _).descend (network.ready oracle houtputs) hdescend).1⟩

theorem wellFormed_of_partitioned (houtputs : ∀ output ∈ outputs, output < network.outputDim) {threads : Nat}
    {first layer : Layer α} {rest : List (Layer α)} (hlayers : network.layers = first :: layer :: rest)
    (h : (network.search oracle outputs).partitioned threads layer rest network.firstForms = .ok decomposition) :
    decomposition.outputs = outputs ∧ decomposition.WellFormed network.inputDim := by
  obtain ⟨gates, found, hgates, hfound, rfl⟩ := partitioned_eq_ok.mp h
  have hparts : ∀ part ∈ found, part.Over network.inputDim outputs.length network.firstForms := by
    intro part hpart
    obtain ⟨number, -, hrun⟩ := exists_of_mem_mapM hfound hpart
    exact (pending_firstForms houtputs hlayers hgates).partitionFrom_over hrun
  exact ⟨rfl, ((Partition.Over.start network.shaped_firstForms _).foldl_absorb hparts).wellFormed⟩

end Network

namespace Translator

variable {translator : Translator α} {network : Network α} {outputs : List Nat} {decomposition : Decomposition α}

/-- A translation starts from pieces over its inputs, for each of the requested outputs. -/
theorem wellFormed_of_decompose (h : translator.decompose network outputs = .ok decomposition) :
    network.requestedOutputs outputs = .ok decomposition.outputs ∧ decomposition.WellFormed translator.dim := by
  obtain ⟨hdim, requested, hrequested, hrun⟩ := decompose_cases h
  have houtputs := Network.lt_of_requestedOutputs hrequested
  have hformed : decomposition.outputs = requested ∧ decomposition.WellFormed network.inputDim := by
    rcases hrun with hwhole | ⟨first, layer, rest, hlayers, hpartitioned⟩
    · exact Network.wellFormed_of_decomposeOutputs houtputs hwhole
    · exact Network.wellFormed_of_partitioned houtputs hlayers hpartitioned
  rw [← hdim, hformed.1]
  exact ⟨hrequested, hformed.2⟩

/-- The pieces that a translation starts from make a regular dump with their prototypes, as long as these can be
numbered. -/
theorem regular_of_decompose [Scalar.Held α] (h : translator.decompose network outputs = .ok decomposition)
    (hcount : decomposition.prototypes.length ≤ unsigned64Max) {pieces : List Piece}
    (hpieces : pieces ∈ decomposition.pieces) :
    (⟨decomposition.prototypes, pieces⟩ : RegionDump α).Regular translator.dim where
  prototypes := (wellFormed_of_decompose h).2.shaped
  pieces piece hpiece := by
    obtain ⟨hlength, hrefers⟩ := (wellFormed_of_decompose h).2.pieces pieces hpieces piece hpiece
    exact ⟨hlength, {
      filled := List.ne_nil_of_length_eq_add_one hlength
      lowest := carry_of_decompose (Fraction.emitted_lowest α) h pieces hpieces piece hpiece
      named := fun boundary hboundary =>
        ⟨hrefers boundary hboundary, (hrefers boundary hboundary).trans_le hcount⟩ }⟩

/-- The name of the output is carried along, and nothing else of a translation depends on it. -/
theorem returns_translatePieces {prototypes : List (Affine α)} {pieces : List Piece} {output : Nat}
    {before after : Allocator} {result : OutputTranslation}
    (h : (translator.translatePieces output prototypes pieces).Returns before result after) :
    result.output = output ∧ ∀ other, (translator.translatePieces other prototypes pieces).Returns before
      ⟨other, result.modsats, result.lattice⟩ after := by
  unfold translatePieces at h ⊢
  split_ifs at h ⊢
  · obtain ⟨table, first, htable, hbehind⟩ := returns_bind.mp h
    obtain ⟨modsats, second, hmodsats, hjoin⟩ := returns_bind.mp hbehind
    obtain ⟨lattice, third, hlattice, hresult⟩ := returns_bind.mp hjoin
    cases hresult
    exact ⟨rfl, fun other => returns_bind.mpr ⟨table, first, htable,
      returns_bind.mpr ⟨modsats, second, hmodsats, returns_bind.mpr ⟨lattice, _, hlattice, rfl⟩⟩⟩⟩
  · obtain ⟨modsats, first, hmodsats, hjoin⟩ := returns_bind.mp h
    obtain ⟨lattice, second, hlattice, hresult⟩ := returns_bind.mp hjoin
    cases hresult
    exact ⟨rfl, fun other => returns_bind.mpr ⟨modsats, first, hmodsats,
      returns_bind.mpr ⟨lattice, _, hlattice, rfl⟩⟩⟩

/-- A regular dump over the translator's inputs is translated like its prototypes and pieces. -/
theorem translateDump_eq {dump : RegionDump α} (h : dump.Regular translator.dim) :
    translator.translateDump dump = translator.translatePieces 0 dump.prototypes dump.pieces := by
  rw [translateDump]
  rcases RegionDump.dim?_eq h.prototypes_dim h.pieces_dim with hdim | hdim
  · rw [hdim]
  · have hsame : translator.checkDim translator.dim = .ok () := if_neg (not_not.mpr rfl)
    simp only [hdim, hsame]
    rfl

/-- A translation of one output has its pieces in the only slot. -/
theorem exists_slots_eq {output : Nat} (h : translator.decompose network [output] = .ok decomposition) :
    ∃ pieces, pieces ∈ decomposition.pieces ∧ decomposition.piecesFor? output = some pieces ∧
      decomposition.slots = [(output, pieces)] := by
  obtain ⟨hrequested, hformed⟩ := wellFormed_of_decompose h
  have houtputs : decomposition.outputs = [output] := (Network.requestedOutputs_eq_ok.mp hrequested).2
  have hlength : decomposition.pieces.length = 1 := by
    rw [show decomposition.pieces.length = _ from hformed.length_eq, houtputs]
    rfl
  obtain ⟨pieces, hpieces⟩ := List.length_eq_one_iff.mp hlength
  refine ⟨pieces, hpieces ▸ List.mem_singleton_self pieces, ?_, ?_⟩
  · rw [Decomposition.piecesFor?, Decomposition.slot?, houtputs, hpieces, List.idxOf?_cons, beq_self_eq_true]
    rfl
  · rw [Decomposition.slots, houtputs, hpieces]
    rfl

variable [RealText α]

/-- The dump of an output translates like the network it came from, whatever the oracle answers and however the
decomposition is searched. When the translation of one output succeeds, the text of its prototypes and pieces is
accepted and reads back as they are, as long as the coefficients of the prototypes do and there are not more prototypes
than 64-bit numbers for them; and the dump that was read has a translation with the same encodings and the same join,
which leaves the same allocator behind. -/
theorem translateDump_of_translate [Scalar.Held α] [RealText.Spelled α] (translator : Translator α)
    (network : Network α) (output : Nat) {translation : Translation α} {after : Allocator}
    (hrun : (translator.translate network [output]).run.run (.ofDim translator.dim) = (.ok translation, after))
    (hreads : ∀ form ∈ translation.decomposition.prototypes, ∀ coefficient ∈ form.coefficients,
      RealText.read? (RealText.write coefficient) = some coefficient)
    (hcount : translation.decomposition.prototypes.length ≤ unsigned64Max) :
    ∃ pieces result, translation.decomposition.piecesFor? output = some pieces ∧
      translation.outputs = [result] ∧ result.output = output ∧
      Instance.parse (RegionDump.text ⟨translation.decomposition.prototypes, pieces⟩) =
        .ok (.regions ⟨translation.decomposition.prototypes, pieces⟩) ∧
      (translator.translateDump ⟨translation.decomposition.prototypes, pieces⟩).run.run (.ofDim translator.dim) =
        (.ok ⟨0, result.modsats, result.lattice⟩, after) := by
  obtain ⟨hdecomposition, -, hslots⟩ := returns_translate hrun
  obtain ⟨pieces, hmem, hpieces, hslot⟩ := exists_slots_eq hdecomposition
  have hregular := regular_of_decompose hdecomposition hcount hmem
  rw [hslot, List.mapM_cons] at hslots
  obtain ⟨result, middle, hresult, hbehind⟩ := returns_bind.mp hslots
  obtain ⟨others, last, hothers, hall⟩ := returns_bind.mp hbehind
  cases hothers
  obtain ⟨houtputs, rfl⟩ := (returns_pure _ _).unique hall
  obtain ⟨houtput, htranslated⟩ := returns_translatePieces hresult
  refine ⟨pieces, result, hpieces, houtputs.symm, houtput, ?_, ?_⟩
  · exact Instance.parse_text_self hregular fun form hform => List.forall₂_same.mpr fun coefficient hcoefficient =>
      ⟨RealText.Spelled.isWord coefficient, hreads form hform coefficient hcoefficient⟩
  · rw [translateDump_eq hregular]
    exact htranslated 0

/-- The dump of the shifted gate, cut at one half, over a line: it is translated like the network. -/
theorem translateDump_of_translate_shifted : ∃ translation after pieces result,
    (paired.translate .shifted [0]).run.run (.ofDim 1) = (.ok translation, after) ∧
      translation.decomposition.piecesFor? 0 = some pieces ∧ translation.outputs = [result] ∧
      Instance.parse (RegionDump.text ⟨translation.decomposition.prototypes, pieces⟩) =
        .ok (.regions ⟨translation.decomposition.prototypes, pieces⟩) ∧
      (paired.translateDump ⟨translation.decomposition.prototypes, pieces⟩).run.run (.ofDim 1) =
        (.ok ⟨0, result.modsats, result.lattice⟩, after) := by
  have hcount : ((paired.translate .shifted [0]).run.run (.ofDim 1)).1.toOption.map
      (fun translation => translation.decomposition.prototypes.length) = some 5 := by
    decide +kernel
  rcases hrun : (paired.translate .shifted [0]).run.run (.ofDim 1) with ⟨error | translation, after⟩ <;>
    rw [hrun] at hcount
  · cases hcount
  · have hlength : translation.decomposition.prototypes.length = 5 := Option.some.inj hcount
    obtain ⟨pieces, result, hpieces, houtputs, -, hparse, htranslated⟩ :=
      translateDump_of_translate paired .shifted 0 hrun (fun _ _ coefficient _ => RealText.read?_write_rat coefficient)
        (hlength.trans_le (by decide))
    exact ⟨translation, after, pieces, result, rfl, hpieces, houtputs, hparse, htranslated⟩

end Translator

end ReluLogic
