import ReluLogic.Proofs.Translation.EndToEnd
import ReluLogic.Proofs.Translation.Outcomes

/-!
The outputs of a translation one by one. The allocator is shared by all outputs of a run, and what defines a constant
is returned with the piece that uses it first. So the defining formulas of an output give its formulas their values
together with those of the outputs before it; the first output stands alone, a later one need not.
-/

namespace ReluLogic

namespace Translator

open Encoding

variable {α : Type} [Scalar α] {translator : Translator α} {network : Network α} {outputs : List Nat}
  {translation : Translation α} {before after : Allocator}

/-- The first outputs of a translation are a translation of the first slots, by a run that ends within the range of
variables where the whole translation does. -/
theorem exists_run_take (h : (translator.translate network outputs).Returns before translation after) (count : Nat) :
    ∃ requests middle, (∀ request ∈ requests, request.Proper translator.dim) ∧
      serveAll requests before =
        (allCalls (translation.decomposition.slots.take count) (translation.outputs.take count), middle) ∧
      List.Forall₂ Matches (translation.decomposition.slots.take count) (translation.outputs.take count) ∧
      middle.counter ≤ after.counter := by
  obtain ⟨hdecomposition, -, hslots⟩ := returns_translate h
  obtain ⟨middle, hfirst, hrest⟩ := @returns_mapM_take _ _ _ _ count _ _ _ hslots
  have hproper := translator.proper_slots hdecomposition
  have hfirsts := translator.runs_slots (translation.decomposition.slots.take count)
    (fun slot hslot => hproper slot (List.mem_of_mem_take hslot)) translation.decomposition.prototypes
  have hothers := translator.runs_slots (translation.decomposition.slots.drop count)
    (fun slot hslot => hproper slot (List.mem_of_mem_drop hslot)) translation.decomposition.prototypes
  obtain ⟨requests, calls, hrequests, hserve, hmatches, rfl⟩ := hfirsts.of_returns hfirst
  obtain ⟨more, others, -, hserve', -⟩ := hothers.of_returns hrest
  refine ⟨requests, middle, hrequests, hserve, hmatches, ?_⟩
  calc middle.counter
      ≤ (serveAll more middle).2.counter := counter_le_serveAll more middle
    _ = after.counter := by rw [hserve']

/-- In a translation by a new translator the defining formulas of an output and of those before it give each formula
of the output the value of its piece at the inputs, cut off to the unit interval. Those of the first output do so on
their own. -/
theorem outputs_force_values (translator : Translator α) (network : Network α) (outputs : List Nat)
    {translation : Translation α} {after : Allocator}
    (hrun : (translator.translate network outputs).run.run (.ofDim translator.dim) = (.ok translation, after))
    (hmax : after.counter ≤ variableMax) {place : Nat} {result : OutputTranslation}
    (hresult : translation.outputs[place]? = some result) {valuation : Nat → ℚ} (hunit : UnitValued valuation)
    (hdefined : ∀ other ∈ translation.outputs.take (place + 1), ∀ formula ∈ other.defining,
      formula.evaluate valuation = .ok (some 1)) :
    ∃ pieces, translation.decomposition.outputs[place]? = some result.output ∧
      translation.decomposition.pieces[place]? = some pieces ∧ pieces.length = result.modsats.length ∧
      ∀ (k : Nat) (piece : Piece) (modsat : Modsat), pieces[k]? = some piece → result.modsats[k]? = some modsat →
        modsat.phi.evaluate valuation = .ok (some (min 1 (max 0
          (piece.evaluate (inputPoint translator.dim valuation))))) := by
  obtain ⟨requests, middle, hrequests, hserve, hmatches, hcounter⟩ := exists_run_take hrun (place + 1)
  have hown : (translation.outputs.take (place + 1))[place]? = some result := by
    rw [List.getElem?_take_of_lt (Nat.lt_succ_self place), hresult]
  obtain ⟨⟨output, pieces⟩, hslot, houtput, hlength⟩ := exists_slot hmatches hown
  obtain rfl : result.output = output := houtput
  have hrequested := hslot
  rw [List.getElem?_take_of_lt (Nat.lt_succ_self place), Decomposition.slots,
    List.getElem?_zip_eq_some] at hrequested
  refine ⟨pieces, hrequested.1, hrequested.2, hlength, fun k piece modsat hpiece hmodsat => ?_⟩
  have hpair : ⟨piece.coefficients, modsat⟩ ∈ calls pieces result.modsats :=
    mem_calls.mpr ⟨k, piece, hpiece, hmodsat, rfl⟩
  have hcall := mem_allCalls hslot hown hpair
  have hserved : ⟨piece.coefficients, modsat⟩ ∈ (serveAll requests (.ofDim translator.dim)).1 := by
    rw [hserve]
    exact hcall
  have hanswers := answers_ofDim hrequests hserve (hcounter.trans hmax)
  refine denotes_of_satisfies hanswers (hcounter.trans hmax) hunit rfl ?_
    (length_le_of_mem_serveAll hrequests hserved) hcall
  rw [defining_allCalls (hmatches.imp fun _ _ hmatch => hmatch.2)]
  exact List.forall_mem_flatMap.mpr hdefined

/-- The network with the output `x` twice. -/
def twin : Network ℚ :=
  ⟨[[⟨0, [1]⟩, ⟨0, [1]⟩]], rfl⟩

/-- The degrees that the input one half gives to the variables of the translation of `twin`. -/
def twinDegrees : List ℚ :=
  [0, 1 / 2, 0, 1, 1 / 2, 1 / 2]

/-- With the formulas of both outputs the second one's piece for the constant one has this value. -/
theorem outputs_force_values_twin :
    ∃ translation ∈ ((paired.translate twin []).run.run (.ofDim 1)).1.toOption,
      ∃ result ∈ translation.outputs[1]?, ∃ modsat ∈ result.modsats[2]?,
        modsat.phi.evaluate (twinDegrees.getD · 0) = .ok (some 1) := by
  have hfacts : ∃ translation ∈ ((paired.translate twin []).run.run (.ofDim 1)).1.toOption,
      (∀ other ∈ translation.outputs.take 2, ∀ formula ∈ other.defining,
        formula.evaluate (twinDegrees.getD · 0) = .ok (some 1)) ∧
      ∃ result ∈ translation.outputs[1]?, ∃ pieces ∈ translation.decomposition.pieces[1]?,
        ∃ piece ∈ pieces[2]?, ∃ modsat ∈ result.modsats[2]?,
          piece.evaluate (inputPoint 1 (twinDegrees.getD · 0)) = 1 := by
    decide +kernel
  obtain ⟨translation, htranslation, hdefined, result, hresult, pieces, hpieces, piece, hpiece, modsat, hmodsat,
    hvalue⟩ := hfacts
  rcases hrun : (paired.translate twin []).run.run (.ofDim 1) with ⟨fault | found, after⟩ <;>
    rw [hrun] at htranslation <;> cases htranslation
  have hcounter : ((paired.translate twin []).run.run (.ofDim 1)).2.counter ≤ variableMax := by decide +kernel
  rw [hrun] at hcounter
  have hunit := unitValued_getD (show ∀ degree ∈ twinDegrees, 0 ≤ degree ∧ degree ≤ 1 by decide +kernel)
  obtain ⟨own, -, hown, -, hvalues⟩ := outputs_force_values paired twin [] hrun hcounter hresult hunit hdefined
  cases hown.symm.trans hpieces
  refine ⟨translation, rfl, result, hresult, modsat, hmodsat, ?_⟩
  rw [hvalues 2 piece modsat hpiece hmodsat, show piece.evaluate (inputPoint paired.dim _) = 1 from hvalue]
  norm_num

/-- An output of `twin` does not stand alone: its piece for the constant one reads the constant that the output before
it defined. Where all variables are zero its own defining formulas hold, and the formula of the piece is zero. -/
theorem twin_lacks_constant :
    ((paired.translate twin []).run.run (.ofDim 1)).2.counter ≤ variableMax ∧
      ∃ translation ∈ ((paired.translate twin []).run.run (.ofDim 1)).1.toOption,
        ∃ slot ∈ translation.decomposition.pieces.zip translation.outputs,
          (∀ formula ∈ slot.2.defining, formula.evaluate (fun _ => (0 : ℚ)) = .ok (some 1)) ∧
          ∃ encoded ∈ slot.1.zip slot.2.modsats,
            encoded.2.phi.evaluate (fun _ => (0 : ℚ)) = .ok (some 0) ∧
              min 1 (max 0 (encoded.1.evaluate (inputPoint 1 fun _ => 0))) = (1 : ℚ) := by
  constructor
  · decide +kernel
  · decide +kernel

end Translator

end ReluLogic
