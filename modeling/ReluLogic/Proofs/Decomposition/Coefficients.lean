import ReluLogic.Proofs.Decomposition.Partitioned
import ReluLogic.Translation

/-!
Coefficients of pieces. Every piece that a search emits is the constant zero, the constant one, or a form converted
at six decimal places, and merging partitions changes regions only. So what holds of zero, of one and of every
conversion holds of all coefficients of a decomposition, for numbers of any kind and whatever the oracle answers:
their denominators are positive, and where conversions stay in the 64-bit range they are in lowest terms.
-/

namespace ReluLogic

/-- All coefficients of a piece have positive denominators. -/
def Piece.Proper (piece : Piece) : Prop :=
  ∀ coefficient ∈ piece.coefficients, 0 < coefficient.den

instance : DecidablePred Piece.Proper :=
  fun piece => inferInstanceAs (Decidable (∀ coefficient ∈ piece.coefficients, 0 < coefficient.den))

theorem Piece.Proper.zero (dim : Nat) (region : List Boundary) : (Piece.zero dim region).Proper := by
  intro coefficient hcoefficient
  rw [List.eq_of_mem_replicate hcoefficient]
  exact one_pos

theorem Piece.Proper.one (dim : Nat) (region : List Boundary) : (Piece.one dim region).Proper := by
  intro coefficient hcoefficient
  rcases List.mem_cons.mp hcoefficient with rfl | hcoefficient
  · exact one_pos
  · rw [List.eq_of_mem_replicate hcoefficient]
    exact one_pos

theorem Piece.Proper.ofDecimal {α : Type} [Scalar α] (coefficients : List α) (region : List Boundary) :
    (⟨coefficients.map Fraction.ofDecimal, region⟩ : Piece).Proper := by
  intro coefficient hcoefficient
  obtain ⟨value, -, rfl⟩ := List.mem_map.mp hcoefficient
  exact Fraction.ofDecimal_den_pos value

/-- A property of fractions that zero, one and every converted number have. -/
structure Fraction.Emitted (α : Type) [Scalar α] (P : Fraction → Prop) : Prop where
  zero : P .zero
  one : P .one
  ofDecimal : ∀ value : α, P (.ofDecimal value)

theorem Fraction.emitted_den_pos (α : Type) [Scalar α] : Emitted α fun fraction => 0 < fraction.den :=
  ⟨one_pos, one_pos, ofDecimal_den_pos⟩

/-- All coefficients of all pieces of all slots have a property. -/
def Carry (P : Fraction → Prop) (slots : List (List Piece)) : Prop :=
  ∀ slot ∈ slots, ∀ piece ∈ slot, ∀ coefficient ∈ piece.coefficients, P coefficient

section Slots

variable {P : Fraction → Prop}

theorem carry_replicate (count : Nat) : Carry P (List.replicate count []) := by
  intro slot hslot piece hpiece
  rw [List.eq_of_mem_replicate hslot] at hpiece
  exact absurd hpiece List.not_mem_nil

theorem Carry.appendSlots {slots more : List (List Piece)} (h : Carry P slots) (h' : Carry P more) :
    Carry P (appendSlots slots more) := by
  induction slots generalizing more with
  | nil => exact h
  | cons held slots ih =>
      cases more with
      | nil => exact h
      | cons pieces more =>
          obtain ⟨hheld, hslots⟩ := List.forall_mem_cons.mp h
          obtain ⟨hpieces, hmore⟩ := List.forall_mem_cons.mp h'
          exact List.forall_mem_cons.mpr ⟨List.forall_mem_append.mpr ⟨hheld, hpieces⟩, ih hslots hmore⟩

theorem Carry.absorb {α : Type} {base : Nat} {merged next : Partition α} (h : Carry P merged.pieces)
    (h' : Carry P next.pieces) : Carry P (merged.absorb base next).pieces := by
  apply h.appendSlots
  intro slot hslot piece hpiece
  obtain ⟨own, hown, rfl⟩ := List.mem_map.mp hslot
  obtain ⟨original, horiginal, rfl⟩ := List.mem_map.mp hpiece
  exact h' own hown original horiginal

end Slots

namespace Search

variable {α : Type} [Scalar α] {search : Search α} {P : Fraction → Prop}

theorem carry_of_emitted (hemits : Fraction.Emitted α P) {forms : List (Affine α)} {first output : Nat}
    {region : List Boundary} {before after : List (Affine α)} {slot : List Piece}
    (h : search.Emitted forms first region before after output slot) :
    ∀ piece ∈ slot, ∀ coefficient ∈ piece.coefficients, P coefficient := by
  obtain ⟨known, -, -, hkeep⟩ := h
  intro piece hpiece coefficient hcoefficient
  have hcandidate := ((mem_of_keepFeasible _ hkeep).1 hpiece).1
  rcases mem_candidates.mp hcandidate with rfl | rfl | rfl
  · rw [List.eq_of_mem_replicate hcoefficient]
    exact hemits.zero
  · obtain ⟨value, -, rfl⟩ := List.mem_map.mp hcoefficient
    exact hemits.ofDecimal value
  · rcases List.mem_cons.mp hcoefficient with rfl | hcoefficient
    · exact hemits.one
    · rw [List.eq_of_mem_replicate hcoefficient]
      exact hemits.zero

/-- A search that starts with coefficients of a kind ends with coefficients of the kind. -/
theorem rules_carry (search : Search α) (hemits : Fraction.Emitted α P) : search.Rules
    (fun _ _ _ state result => Carry P state.pieces → Carry P result.pieces)
    (fun _ _ _ _ _ state result => Carry P state.pieces → Carry P result.pieces) where
  leaf hemit h := by
    obtain ⟨-, hslots⟩ := emit_spec _ hemit
    refine h.appendSlots fun slot hslot => ?_
    obtain ⟨place, hplace, rfl⟩ := List.mem_iff_getElem.mp hslot
    exact carry_of_emitted hemits (hslots.get (hslots.length_eq.symm ▸ hplace) hplace)
  layer _ hresolved := hresolved
  done hexplored := hexplored
  fixed _ hresolved := hresolved
  cut _ hgeq hleq h := hleq.keeps (hgeq.keeps h)

theorem carry_of_partition (hemits : Fraction.Emitted α P) {layer : Layer α} {rest : List (Layer α)}
    {base : List (Affine α)} {gates : List (Gate α)} {signs : List Sign} {found : Partition α}
    (h : search.partition layer rest base gates signs = .ok found) : Carry P found.pieces := by
  rw [partition_eq_partitionFrom] at h
  rcases partitionFrom_eq_ok.mp h with ⟨-, hbranch⟩ | ⟨-, rfl⟩
  · exact (search.rules_carry hemits).branch hbranch (carry_replicate _)
  · exact carry_replicate _

end Search

namespace Network

variable {α : Type} [Scalar α] {network : Network α} {oracle : Oracle α} {outputs : List Nat}
  {decomposition : Decomposition α} {P : Fraction → Prop}

theorem carry_of_decomposeOutputs (hemits : Fraction.Emitted α P)
    (h : network.decomposeOutputs oracle outputs = .ok decomposition) : Carry P decomposition.pieces :=
  (Search.rules_carry _ hemits).descend _ (decomposeOutputs_eq_ok h).2 (carry_replicate _)

theorem carry_of_partitioned (hemits : Fraction.Emitted α P) {search : Search α} {threads : Nat} {layer : Layer α}
    {rest : List (Layer α)} {base : List (Affine α)}
    (h : search.partitioned threads layer rest base = .ok decomposition) : Carry P decomposition.pieces := by
  obtain ⟨gates, parts, -, hparts, rfl⟩ := partitioned_eq_ok.mp h
  apply List.foldlRecOn parts _ (motive := fun merged : Partition α => Carry P merged.pieces)
  · exact carry_replicate _
  · intro merged hmerged part hpart
    obtain ⟨number, -, hrun⟩ := exists_of_mem_mapM hparts hpart
    exact hmerged.absorb (Search.carry_of_partition hemits hrun)

end Network

namespace Translator

variable {α : Type} [Scalar α] {translator : Translator α} {network : Network α} {outputs : List Nat}
  {decomposition : Decomposition α}

/-- A translation starts from one search, or from a search in partitions of a network with several layers. -/
theorem decompose_cases (h : translator.decompose network outputs = .ok decomposition) :
    network.inputDim = translator.dim ∧ ∃ requested, network.requestedOutputs outputs = .ok requested ∧
      (network.decomposeOutputs translator.oracle requested = .ok decomposition ∨
        ∃ first layer rest, network.layers = first :: layer :: rest ∧
          (network.search translator.oracle requested).partitioned translator.threads layer rest
            network.firstForms = .ok decomposition) := by
  obtain ⟨_, hdim, h⟩ := bind_eq_ok.mp h
  have hsame : network.inputDim = translator.dim := by
    rw [checkDim] at hdim
    split_ifs at hdim with hne
    exact not_not.mp hne
  refine ⟨hsame, ?_⟩
  split_ifs at h
  · exact Network.decomposeParallel_cases h
  · obtain ⟨requested, hrequested, hwhole⟩ := bind_eq_ok.mp h
    exact ⟨requested, hrequested, Or.inl hwhole⟩

/-- The coefficients of the pieces that a translation starts from have what all emitted coefficients have. -/
theorem carry_of_decompose {P : Fraction → Prop} (hemits : Fraction.Emitted α P)
    (h : translator.decompose network outputs = .ok decomposition) : Carry P decomposition.pieces := by
  obtain ⟨-, requested, -, hwhole | ⟨first, layer, rest, -, hrun⟩⟩ := decompose_cases h
  · exact Network.carry_of_decomposeOutputs hemits hwhole
  · exact Network.carry_of_partitioned hemits hrun

/-- The pieces that a translation starts from have positive denominators. -/
theorem proper_of_decompose (h : translator.decompose network outputs = .ok decomposition) :
    ∀ slot ∈ decomposition.pieces, ∀ piece ∈ slot, piece.Proper :=
  carry_of_decompose (Fraction.emitted_den_pos α) h

end Translator

end ReluLogic
