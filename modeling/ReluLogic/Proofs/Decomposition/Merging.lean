import ReluLogic.Proofs.Decomposition.Covering

/-!
Partitions put behind one another. Rebased boundaries stand for the same prototypes as before, so a merged
partition agrees with its outputs where its parts do, and it covers every point that one of them covers.
-/

namespace ReluLogic

@[simp] theorem Boundary.sign_rebase (base offset : Nat) (boundary : Boundary) :
    (boundary.rebase base offset).sign = boundary.sign := by
  unfold rebase
  split_ifs <;> rfl

section Rebasing

variable {α : Type} {merged next : Partition α} {base : List (Affine α)}

/-- A rebased boundary refers to its prototype among the merged ones. -/
theorem getElem?_rebase (hmerged : base <+: merged.prototypes) (hnext : base <+: next.prototypes)
    (boundary : Boundary) :
    (merged.prototypes ++ next.prototypes.drop base.length)[(boundary.rebase base.length
      (merged.prototypes.length - base.length)).index]? = next.prototypes[boundary.index]? := by
  have hlength : base.length ≤ merged.prototypes.length := hmerged.length_le
  rw [Boundary.rebase]
  split_ifs with hindex
  · show (merged.prototypes ++ next.prototypes.drop base.length)[boundary.index +
      (merged.prototypes.length - base.length)]? = _
    rw [List.getElem?_append_right (by omega), List.getElem?_drop]
    congr 1
    omega
  · have hwithin : boundary.index < base.length := not_le.mp hindex
    rw [List.getElem?_append_left (hwithin.trans_le hlength), getElem?_of_extends hmerged hwithin,
      getElem?_of_extends hnext hwithin]

theorem sides_rebase (hmerged : base <+: merged.prototypes) (hnext : base <+: next.prototypes)
    (region : List Boundary) :
    sides (merged.absorb base.length next).prototypes (region.map (.rebase base.length
      (merged.prototypes.length - base.length))) = sides next.prototypes region := by
  rw [sides, List.map_map]
  exact List.map_congr_left fun boundary _ =>
    Prod.ext (getElem?_rebase hmerged hnext boundary) (Boundary.sign_rebase _ _ boundary)

theorem Refers.rebase {region : List Boundary} (h : Refers next.prototypes region)
    (hmerged : base <+: merged.prototypes) (hnext : base <+: next.prototypes) :
    Refers (merged.absorb base.length next).prototypes (region.map (.rebase base.length
      (merged.prototypes.length - base.length))) := by
  intro boundary hboundary
  obtain ⟨own, hown, rfl⟩ := List.mem_map.mp hboundary
  have hsame := getElem?_rebase hmerged hnext own
  rw [List.getElem?_eq_getElem (h own hown)] at hsame
  exact (List.getElem?_eq_some_iff.mp hsame).1

/-- The pieces of a merged slot are those held and the rebased ones of the partition put behind. -/
theorem mem_absorb {slots place : Nat} {slot : List Piece} (hlength : merged.pieces.length = slots)
    (hlength' : next.pieces.length = slots) (hslot : (merged.absorb base.length next).pieces[place]? = some slot) :
    ∃ held own, merged.pieces[place]? = some held ∧ next.pieces[place]? = some own ∧
      slot = held ++ own.map (.rebase base.length (merged.prototypes.length - base.length)) := by
  have hsame : merged.pieces.length =
      (next.pieces.map (·.map (Piece.rebase base.length (merged.prototypes.length - base.length)))).length := by
    rw [List.length_map, hlength, hlength']
  obtain ⟨held, added, hheld, hadded, rfl⟩ := (getElem?_appendSlots hsame).mp hslot
  rw [List.getElem?_map, Option.map_eq_some_iff] at hadded
  obtain ⟨own, hown, rfl⟩ := hadded
  exact ⟨held, own, hheld, hown, rfl⟩

theorem Partition.WellFormed.absorb {dim slots : Nat} (h : merged.WellFormed dim slots)
    (h' : next.WellFormed dim slots) (hmerged : base <+: merged.prototypes) (hnext : base <+: next.prototypes) :
    (merged.absorb base.length next).WellFormed dim slots where
  shaped := shaped_append.mpr ⟨h.shaped, fun form hform => h'.shaped form (List.mem_of_mem_drop hform)⟩
  length_eq := by
    rw [Partition.absorb, length_appendSlots (by rw [List.length_map, h.length_eq, h'.length_eq])]
    exact h.length_eq
  pieces slot hslot piece hpiece := by
    obtain ⟨place, hplace⟩ := List.mem_iff_getElem?.mp hslot
    obtain ⟨held, own, hheld, hown, rfl⟩ := mem_absorb h.length_eq h'.length_eq hplace
    rcases List.mem_append.mp hpiece with hpiece | hpiece
    · obtain ⟨hlength, hrefers⟩ := h.pieces held (List.mem_of_getElem? hheld) piece hpiece
      exact ⟨hlength, hrefers.mono (List.prefix_append _ _)⟩
    · obtain ⟨original, horiginal, rfl⟩ := List.mem_map.mp hpiece
      obtain ⟨hlength, hrefers⟩ := h'.pieces own (List.mem_of_getElem? hown) original horiginal
      exact ⟨hlength, hrefers.rebase hmerged hnext⟩

end Rebasing

/-- A partition of well-formed pieces that starts with base prototypes. -/
structure Partition.Over {α : Type} (dim slots : Nat) (base : List (Affine α)) (partition : Partition α) :
    Prop where
  starts : base <+: partition.prototypes
  wellFormed : partition.WellFormed dim slots

namespace Partition.Over

variable {α : Type} {dim slots : Nat} {base : List (Affine α)} {merged next : Partition α}

theorem start (h : Shaped dim base) (slots : Nat) : (Partition.start base slots).Over dim slots base :=
  ⟨List.prefix_rfl, .start h slots⟩

theorem absorb (h : merged.Over dim slots base) (h' : next.Over dim slots base) :
    (merged.absorb base.length next).Over dim slots base :=
  ⟨h.starts.trans (List.prefix_append _ _), h.wellFormed.absorb h'.wellFormed h.starts h'.starts⟩

theorem foldl_absorb (h : merged.Over dim slots base) {partitions : List (Partition α)}
    (hparts : ∀ part ∈ partitions, part.Over dim slots base) :
    (partitions.foldl (Partition.absorb base.length) merged).Over dim slots base :=
  List.foldlRecOn partitions _ h fun _ hover part hpart => hover.absorb (hparts part hpart)

end Partition.Over

/-! ### Points -/

/-- A point lies in some piece of each slot. -/
def Partition.Holds (partition : Partition ℚ) (point : List ℚ) : Prop :=
  ∀ slot ∈ partition.pieces, ∃ piece ∈ slot, Inside partition.prototypes piece.region point

namespace Partition.Over

variable {dim slots : Nat} {base : List (Affine ℚ)} {merged next : Partition ℚ} {point : List ℚ}

theorem holds_absorb (h : merged.Over dim slots base) (h' : next.Over dim slots base)
    (hpoint : merged.Holds point ∨ next.Holds point) : (merged.absorb base.length next).Holds point := by
  intro slot hslot
  obtain ⟨place, hplace⟩ := List.mem_iff_getElem?.mp hslot
  obtain ⟨held, own, hheld, hown, rfl⟩ := mem_absorb h.wellFormed.length_eq h'.wellFormed.length_eq hplace
  rcases hpoint with hpoint | hpoint
  · obtain ⟨piece, hpiece, hinside⟩ := hpoint held (List.mem_of_getElem? hheld)
    have hrefers := (h.wellFormed.pieces held (List.mem_of_getElem? hheld) piece hpiece).2
    exact ⟨piece, List.mem_append_left _ hpiece, (hrefers.inside_iff (List.prefix_append _ _)).mpr hinside⟩
  · obtain ⟨piece, hpiece, hinside⟩ := hpoint own (List.mem_of_getElem? hown)
    exact ⟨_, List.mem_append_right _ (List.mem_map_of_mem hpiece),
      (inside_congr (sides_rebase h.starts h'.starts piece.region)).mpr hinside⟩

/-- A point that one of the merged partitions covers stays covered. -/
theorem holds_foldl_absorb (partitions : List (Partition ℚ)) :
    ∀ {merged : Partition ℚ}, merged.Over dim slots base → (∀ part ∈ partitions, part.Over dim slots base) →
      (merged.Holds point ∨ ∃ part ∈ partitions, part.Holds point) →
        (partitions.foldl (Partition.absorb base.length) merged).Holds point := by
  induction partitions with
  | nil =>
      intro merged _ _ hpoint
      rcases hpoint with hpoint | ⟨part, hpart, -⟩
      · exact hpoint
      · exact absurd hpart List.not_mem_nil
  | cons next partitions ih =>
      intro merged h hparts hpoint
      obtain ⟨hnext, hrest⟩ := List.forall_mem_cons.mp hparts
      refine ih (h.absorb hnext) hrest ?_
      rcases hpoint with hpoint | ⟨part, hmem, hpoint⟩
      · exact Or.inl (h.holds_absorb hnext (Or.inl hpoint))
      · rcases List.mem_cons.mp hmem with rfl | hmem
        · exact Or.inl (h.holds_absorb hnext (Or.inr hpoint))
        · exact Or.inr ⟨part, hmem, hpoint⟩

end Partition.Over

/-! ### Values -/

/-- A partition over base prototypes whose pieces agree with the outputs of a target. -/
structure Partition.Part (dim : Nat) (outputs : List Nat) (target : List ℚ → List ℚ) (base : List (Affine ℚ))
    (partition : Partition ℚ) : Prop extends Partition.Over dim outputs.length base partition where
  reproduces : partition.Reproduces dim outputs target

namespace Partition.Part

variable {dim : Nat} {outputs : List Nat} {target : List ℚ → List ℚ} {base : List (Affine ℚ)}
  {merged next : Partition ℚ}

theorem absorb (h : merged.Part dim outputs target base) (h' : next.Part dim outputs target base) :
    (merged.absorb base.length next).Part dim outputs target base where
  toOver := h.toOver.absorb h'.toOver
  reproduces place output slot houtput hslot piece hpiece := by
    obtain ⟨held, own, hheld, hown, rfl⟩ := mem_absorb h.wellFormed.length_eq h'.wellFormed.length_eq hslot
    rcases List.mem_append.mp hpiece with hpiece | hpiece
    · exact h.reproduces.grow h.wellFormed (List.prefix_append _ _) place output held houtput hheld piece hpiece
    · obtain ⟨original, horiginal, rfl⟩ := List.mem_map.mp hpiece
      exact (h'.reproduces place output own houtput hown original horiginal).congr rfl
        (sides_rebase h.starts h'.starts original.region)

theorem foldl_absorb (h : merged.Part dim outputs target base) {partitions : List (Partition ℚ)}
    (hparts : ∀ part ∈ partitions, part.Part dim outputs target base) :
    (partitions.foldl (Partition.absorb base.length) merged).Part dim outputs target base :=
  List.foldlRecOn partitions _ h fun _ hmerged part hpart => hmerged.absorb (hparts part hpart)

end Partition.Part

end ReluLogic
