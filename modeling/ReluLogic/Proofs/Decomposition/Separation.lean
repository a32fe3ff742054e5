import ReluLogic.Proofs.Decomposition.Partitioned

/-!
No point is claimed twice. Two pieces of a slot part ways at a gate that one of them has open and the other
closed, or at the leaf that cuts an output into its parts; a point strictly on the sides of all boundaries of
one piece is therefore strictly outside the other. No answer of the oracle matters to this: an oracle decides
which regions are searched, not where they lie.
-/

namespace ReluLogic

/-- A value lies on a side of zero and is not zero. -/
def Sign.Strict (sign : Sign) (value : ℚ) : Prop :=
  match sign with
  | .geq => 0 < value
  | .leq => value < 0

/-- A point lies strictly on the sides of all boundaries of a region. -/
def StrictlyInside (prototypes : List (Affine ℚ)) (region : List Boundary) (point : List ℚ) : Prop :=
  ∀ boundary ∈ region, ∃ form, prototypes[boundary.index]? = some form ∧
    boundary.sign.Strict (form.evaluate point)

/-- No point lies strictly inside both of two regions. -/
def Apart (prototypes : List (Affine ℚ)) (region other : List Boundary) : Prop :=
  ∀ point, StrictlyInside prototypes region point → ¬ StrictlyInside prototypes other point

section Regions

variable {prototypes extended others : List (Affine ℚ)} {region other : List Boundary} {point : List ℚ}

theorem Apart.symm (h : Apart prototypes region other) : Apart prototypes other region :=
  fun point hother hregion => h point hregion hother

theorem StrictlyInside.of_subset (h : StrictlyInside prototypes region point) (hsubset : other ⊆ region) :
    StrictlyInside prototypes other point :=
  fun boundary hmem => h boundary (hsubset hmem)

/-- Which points lie strictly inside a region depends on what its boundaries stand for only. -/
theorem strictlyInside_congr (h : sides prototypes region = sides others other) :
    StrictlyInside prototypes region point ↔ StrictlyInside others other point := by
  have hall : ∀ (known : List (Affine ℚ)) (bounds : List Boundary), StrictlyInside known bounds point ↔
      ∀ side ∈ sides known bounds, ∃ form, side.1 = some form ∧ side.2.Strict (form.evaluate point) := by
    intro known bounds
    rw [sides, List.forall_mem_map, StrictlyInside]
  rw [hall, hall, h]

theorem Apart.congr (h : Apart prototypes region other) {own second : List Boundary}
    (hregion : sides extended own = sides prototypes region)
    (hother : sides extended second = sides prototypes other) : Apart extended own second := by
  intro point hown hsecond
  exact h point ((strictlyInside_congr hregion).mp hown) ((strictlyInside_congr hother).mp hsecond)

/-- Further prototypes leave regions apart. -/
theorem Apart.mono (h : Apart prototypes region other) (hregion : Refers prototypes region)
    (hother : Refers prototypes other) (hextended : prototypes <+: extended) : Apart extended region other :=
  h.congr (hregion.sides_eq hextended) (hother.sides_eq hextended)

/-- Regions that hold one prototype to opposite signs are apart, whatever the prototype is. -/
theorem apart_of_opposite (index : Nat) (hregion : .geq index ∈ region) (hother : .leq index ∈ other) :
    Apart prototypes region other := by
  intro point hinside hinside'
  obtain ⟨form, hform, hpositive⟩ := hinside _ hregion
  obtain ⟨form', hform', hnegative⟩ := hinside' _ hother
  cases hform.symm.trans hform'
  exact lt_asymm hpositive hnegative

/-- The pieces of a slot are apart from one another. -/
def Separated (prototypes : List (Affine ℚ)) (slot : List Piece) : Prop :=
  slot.Pairwise fun piece other => Apart prototypes piece.region other.region

theorem Separated.mono {slot : List Piece} (h : Separated prototypes slot)
    (hrefers : ∀ piece ∈ slot, Refers prototypes piece.region) (hextended : prototypes <+: extended) :
    Separated extended slot :=
  List.Pairwise.imp_of_mem
    (fun hpiece hother hapart => hapart.mono (hrefers _ hpiece) (hrefers _ hother) hextended) h

end Regions

namespace Search

variable {search : Search ℚ}

/-! ### One search -/

theorem sublist_of_keepFeasible {α : Type} [Scalar α] {search : Search α} {prototypes : List (Affine α)}
    (pieces : List Piece) :
    ∀ {kept}, search.keepFeasible prototypes pieces = .ok kept → kept.Sublist pieces := by
  induction pieces with
  | nil =>
      intro kept h
      cases h
      exact .slnil
  | cons piece pieces ih =>
      intro kept h
      obtain ⟨feasible, -, h⟩ := bind_eq_ok.mp h
      obtain ⟨others, hothers, h⟩ := bind_eq_ok.mp h
      cases h
      cases feasible with
      | true => exact (ih hothers).cons_cons piece
      | false => exact (ih hothers).cons piece

/-- The parts that an output cuts a region into are apart: the first two differ on the sign of the form, the
last two on that of the form less one, and no form is negative and above one. -/
theorem Placed.separated_candidates {forms known after : List (Affine ℚ)} {first output : Nat}
    (h : search.Placed forms first output known after) (hforms : Shaped search.dim forms)
    (region : List Boundary) :
    Separated after (Search.candidates search.dim (forms.getD output (.zero search.dim)) region
      (first + output) known.length) := by
  have hlast : ∀ {boundary : Boundary}, boundary ∈ region ++ [boundary] :=
    fun {boundary} => List.mem_append_right _ (List.mem_singleton_self boundary)
  refine List.pairwise_cons.mpr ⟨List.forall_mem_cons.mpr ⟨?_, List.forall_mem_singleton.mpr ?_⟩,
    List.pairwise_pair.mpr ?_⟩
  · exact (apart_of_opposite _ (List.mem_append_right _ List.mem_cons_self) hlast).symm
  · intro point hzero hone
    obtain ⟨form, hform, hnegative⟩ := hzero _ hlast
    obtain ⟨lowered, hlowered, hpositive⟩ := hone _ hlast
    cases hform.symm.trans h.raw
    cases hlowered.symm.trans h.upper
    have habove : 0 < (forms.getD output (.zero search.dim)).evaluate point - 1 := by
      rw [← Affine.evaluate_minusOne (Affine.length_getD hforms output)]
      exact hpositive
    have hbelow : (forms.getD output (.zero search.dim)).evaluate point < 0 := hnegative
    linarith
  · exact (apart_of_opposite _ hlast
      (List.mem_append_right _ (List.mem_cons_of_mem _ (List.mem_singleton_self _)))).symm

/-- What a search of a region puts behind the pieces of each slot: pieces within the region that are apart
from one another. -/
def Separates (region : List Boundary) (state result : Partition ℚ) : Prop :=
  ∀ (place : Nat) (held slot : List Piece), state.pieces[place]? = some held →
    result.pieces[place]? = some slot →
      ∃ added, slot = held ++ added ∧ (∀ piece ∈ added, region ⊆ piece.region) ∧
        Separated result.prototypes added

theorem separates_refl (region : List Boundary) (state : Partition ℚ) : Separates region state state := by
  intro place held slot hheld hslot
  cases hheld.symm.trans hslot
  exact ⟨[], (List.append_nil held).symm, fun _ hmem => absurd hmem List.not_mem_nil, .nil⟩

theorem Ready.separates_leaf {forms final : List (Affine ℚ)} {region : List Boundary} {state : Partition ℚ}
    {slots : List (List Piece)} (h : search.Ready [] forms region state)
    (hemit : search.emit forms state.prototypes.length region search.outputs (state.prototypes ++ forms) =
      .ok (final, slots)) :
    Separates region state ⟨final, appendSlots state.pieces slots⟩ := by
  intro place held slot hheld hslot
  obtain ⟨_, added, output, hheld', houtput, rfl, known, hknown, hafter, hkeep⟩ := h.leaf_slot hemit hslot
  cases hheld.symm.trans hheld'
  have hsublist := sublist_of_keepFeasible _ hkeep
  refine ⟨added, rfl, fun piece hpiece => ?_, ?_⟩
  · have hmem := hsublist.subset hpiece
    rcases mem_candidates.mp hmem with rfl | rfl | rfl <;> exact List.subset_append_left _ _
  · exact ((h.placed (List.mem_of_getElem? houtput) hknown hafter).separated_candidates h.shaped region).sublist
      hsublist

/-- One way of a cut gate separates what it finds, within the region that it narrows. -/
theorem separates_of_half {gate : Gate ℚ} {values : List (Affine ℚ)} {region : List Boundary}
    {state result : Partition ℚ} {sign : Sign}
    (h : search.Half (fun _ region state result => Separates region state result) gate values region sign
      state result) :
    Separates (region ++ [gate.boundary sign]) state result := by
  rcases h with ⟨-, hexplored⟩ | ⟨-, rfl⟩
  · exact hexplored
  · exact separates_refl _ _

/-- A search finds pieces within its region, apart from one another. -/
theorem shapedRules_separates (search : Search ℚ) :
    search.ShapedRules
      (fun _ _ region state result => Separates region state result)
      (fun _ _ _ _ region state result => Separates region state result) where
  leaf hready hemit := hready.separates_leaf hemit
  layer _ _ hresolved := hresolved
  done _ hexplored := hexplored
  fixed _ _ hresolved := hresolved
  cut {_ _ gate _ _ region state middle result} hpending _ hmiddle hresult hformed hgeq hleq := by
    have hopen := separates_of_half hgeq
    have hclosed := separates_of_half hleq
    intro place held slot hheld hslot
    have hplace : place < middle.pieces.length := by
      rw [hformed.length_eq, ← hpending.wellFormed.length_eq]
      exact (List.getElem?_eq_some_iff.mp hheld).1
    obtain ⟨first, hfirst, hwithin, hapart⟩ := hopen place held _ hheld (List.getElem?_eq_getElem hplace)
    obtain ⟨second, hsecond, hwithin', hapart'⟩ := hclosed place _ slot (List.getElem?_eq_getElem hplace) hslot
    have hrefers : ∀ piece ∈ first, Refers middle.prototypes piece.region := by
      intro piece hpiece
      refine (hformed.pieces _ (List.getElem_mem hplace) piece ?_).2
      rw [hfirst]
      exact List.mem_append_right _ hpiece
    refine ⟨first ++ second, by rw [hsecond, hfirst, List.append_assoc], fun piece hpiece => ?_, ?_⟩
    · rcases List.mem_append.mp hpiece with hpiece | hpiece
      · exact List.Subset.trans (List.subset_append_left _ _) (hwithin piece hpiece)
      · exact List.Subset.trans (List.subset_append_left _ _) (hwithin' piece hpiece)
    · refine List.pairwise_append.mpr ⟨hapart.mono hrefers hresult.prototypes, hapart', ?_⟩
      intro piece hpiece other hother
      exact apart_of_opposite gate.index
        (hwithin piece hpiece (List.mem_append_right _ (List.mem_singleton_self _)))
        (hwithin' other hother (List.mem_append_right _ (List.mem_singleton_self _)))

end Search

/-! ### Searches in partitions -/

theorem partitionSigns_injective (count : Nat) : ∀ {number other : Nat}, number < 2 ^ count →
    other < 2 ^ count → partitionSigns count number = partitionSigns count other → number = other := by
  induction count with
  | zero =>
      intro number other hnumber hother _
      omega
  | succ count ih =>
      -- The first sign tells the two halves of the numbers apart, the others count within a half.
      have hhalf : ∀ {number : Nat}, number < 2 ^ (count + 1) → number < 2 ^ count ∨
          ∃ rest < 2 ^ count, number = 2 ^ count + rest := by
        intro number hnumber
        rcases lt_or_ge number (2 ^ count) with hlow | hhigh
        · exact Or.inl hlow
        · exact Or.inr ⟨number - 2 ^ count, by omega, by omega⟩
      intro number other hnumber hother heq
      rcases hhalf hnumber with hlow | ⟨rest, hrest, rfl⟩ <;>
        rcases hhalf hother with hlow' | ⟨rest', hrest', rfl⟩
      · rw [partitionSigns_of_lt hlow, partitionSigns_of_lt hlow'] at heq
        exact ih hlow hlow' (List.cons.inj heq).2
      · rw [partitionSigns_of_lt hlow, partitionSigns_add hrest'] at heq
        cases (List.cons.inj heq).1
      · rw [partitionSigns_add hrest, partitionSigns_of_lt hlow'] at heq
        cases (List.cons.inj heq).1
      · rw [partitionSigns_add hrest, partitionSigns_add hrest'] at heq
        rw [ih hrest hrest' (List.cons.inj heq).2]

/-- Different signs of as many cut gates leave regions that are apart: the first gate at which they differ is
open in one and closed in the other. -/
theorem Assignment.apart_ofSigns (prototypes : List (Affine ℚ)) (gates : List (Gate ℚ)) :
    ∀ {signs others : List Sign}, signs.length = others.length → signs.length ≤ gates.countP Gate.isCut →
      signs ≠ others → Apart prototypes (ofSigns signs gates).region (ofSigns others gates).region := by
  induction gates with
  | nil =>
      intro signs others hlength hcount hne
      have hsigns := List.length_eq_zero_iff.mp (Nat.le_zero.mp hcount)
      subst hsigns
      exact absurd (List.length_eq_zero_iff.mp hlength.symm).symm hne
  | cons gate gates ih =>
      intro signs others hlength hcount hne
      cases signs with
      | nil => exact absurd (List.length_eq_zero_iff.mp hlength.symm).symm hne
      | cons sign signs =>
          obtain ⟨other, others, rfl⟩ := List.exists_cons_of_length_eq_add_one hlength.symm
          rw [List.countP_cons, Gate.isCut_eq_isNone] at hcount
          cases hposition : gate.position.sign? with
          | some own =>
              rw [ofSigns_of_sign? hposition, ofSigns_of_sign? hposition]
              rw [hposition] at hcount
              exact ih hlength hcount hne
          | none =>
              have hcutting := Position.sign?_eq_none_iff.mp hposition
              rw [ofSigns_of_cutting hcutting, ofSigns_of_cutting hcutting]
              rw [hposition] at hcount
              by_cases hsign : sign = other
              · subst hsign
                have hrest := ih (Nat.succ.inj hlength) (Nat.le_of_succ_le_succ hcount)
                  fun heq => hne (congrArg _ heq)
                exact fun point h h' => hrest point (h.of_subset (List.subset_cons_self _ _))
                  (h'.of_subset (List.subset_cons_self _ _))
              · cases sign <;> cases other
                · exact absurd rfl hsign
                · exact apart_of_opposite _ List.mem_cons_self List.mem_cons_self
                · exact (apart_of_opposite _ List.mem_cons_self List.mem_cons_self).symm
                · exact absurd rfl hsign

/-- A partition over base prototypes whose pieces are apart from one another and lie within some area. -/
structure Partition.Clear (dim slots : Nat) (base : List (Affine ℚ)) (area : List ℚ → Prop)
    (partition : Partition ℚ) : Prop extends Partition.Over dim slots base partition where
  separated : ∀ slot ∈ partition.pieces, Separated partition.prototypes slot
  within : ∀ slot ∈ partition.pieces, ∀ piece ∈ slot, ∀ point,
    StrictlyInside partition.prototypes piece.region point → area point

namespace Partition.Clear

variable {dim slots : Nat} {base : List (Affine ℚ)} {area area' : List ℚ → Prop} {merged next : Partition ℚ}

theorem start (h : Shaped dim base) (slots : Nat) :
    (Partition.start base slots).Clear dim slots base fun _ => False where
  toOver := .start h slots
  separated slot hslot := by
    rw [List.eq_of_mem_replicate hslot]
    exact .nil
  within slot hslot piece hpiece := by
    rw [List.eq_of_mem_replicate hslot] at hpiece
    exact absurd hpiece List.not_mem_nil

/-- Partitions within areas that do not meet add up to one within both areas. -/
theorem absorb (h : merged.Clear dim slots base area) (h' : next.Clear dim slots base area')
    (hareas : ∀ point, area point → ¬ area' point) :
    (merged.absorb base.length next).Clear dim slots base fun point => area point ∨ area' point := by
  have hheld : ∀ {slot}, slot ∈ merged.pieces → ∀ piece ∈ slot, sides
      (merged.absorb base.length next).prototypes piece.region = sides merged.prototypes piece.region :=
    fun hslot piece hpiece => (h.wellFormed.pieces _ hslot piece hpiece).2.sides_eq (List.prefix_append _ _)
  have hmoved := fun piece : Piece => sides_rebase h.starts h'.starts piece.region
  refine ⟨h.toOver.absorb h'.toOver, fun slot hslot => ?_, fun slot hslot piece hpiece point hpoint => ?_⟩
  · obtain ⟨place, hplace⟩ := List.mem_iff_getElem?.mp hslot
    obtain ⟨held, own, hheldSlot, hownSlot, rfl⟩ :=
      mem_absorb h.wellFormed.length_eq h'.wellFormed.length_eq hplace
    have hheldMem := List.mem_of_getElem? hheldSlot
    have hownMem := List.mem_of_getElem? hownSlot
    refine List.pairwise_append.mpr ⟨?_, List.pairwise_map.mpr ?_, fun piece hpiece other hother => ?_⟩
    · exact (h.separated held hheldMem).mono
        (fun piece hpiece => (h.wellFormed.pieces held hheldMem piece hpiece).2) (List.prefix_append _ _)
    · exact (h'.separated own hownMem).imp fun {piece other} hapart => hapart.congr (hmoved piece) (hmoved other)
    · obtain ⟨original, horiginal, rfl⟩ := List.mem_map.mp hother
      intro point hinside hinside'
      exact hareas point
        (h.within held hheldMem piece hpiece point
          ((strictlyInside_congr (hheld hheldMem piece hpiece)).mp hinside))
        (h'.within own hownMem original horiginal point ((strictlyInside_congr (hmoved original)).mp hinside'))
  · obtain ⟨place, hplace⟩ := List.mem_iff_getElem?.mp hslot
    obtain ⟨held, own, hheldSlot, hownSlot, rfl⟩ :=
      mem_absorb h.wellFormed.length_eq h'.wellFormed.length_eq hplace
    rcases List.mem_append.mp hpiece with hpiece | hpiece
    · have hheldMem := List.mem_of_getElem? hheldSlot
      exact Or.inl (h.within held hheldMem piece hpiece point
        ((strictlyInside_congr (hheld hheldMem piece hpiece)).mp hpoint))
    · obtain ⟨original, horiginal, rfl⟩ := List.mem_map.mp hpiece
      exact Or.inr (h'.within own (List.mem_of_getElem? hownSlot) original horiginal point
        ((strictlyInside_congr (hmoved original)).mp hpoint))

/-- Partitions within areas of their own stay clear of one another when they are merged. -/
theorem foldl_absorb {numbers : List Nat} {parts : List (Partition ℚ)} {areas : Nat → List ℚ → Prop}
    (hparts : List.Forall₂ (fun number part => Partition.Clear dim slots base (areas number) part) numbers parts)
    (hareas : numbers.Pairwise fun number other => ∀ point, areas number point → ¬ areas other point) :
    ∀ {merged : Partition ℚ} {area : List ℚ → Prop}, merged.Clear dim slots base area →
      (∀ number ∈ numbers, ∀ point, area point → ¬ areas number point) →
        ∀ slot ∈ (parts.foldl (Partition.absorb base.length) merged).pieces,
          Separated (parts.foldl (Partition.absorb base.length) merged).prototypes slot := by
  induction hparts with
  | nil => exact fun hmerged _ => hmerged.separated
  | cons hpart _ ih =>
      intro merged area hmerged hfree
      obtain ⟨hfirst, hrest⟩ := List.forall_mem_cons.mp hfree
      obtain ⟨hahead, hbehind⟩ := List.pairwise_cons.mp hareas
      refine ih hbehind (hmerged.absorb hpart hfirst) fun number hnumber point harea => ?_
      rcases harea with harea | harea
      · exact hrest number hnumber point harea
      · exact hahead number hnumber point harea

end Partition.Clear

/-- A partition lies where its signs hold, and its pieces are apart from one another. -/
theorem Search.Pending.partition_clear {search : Search ℚ} {layer : Layer ℚ} {rest : List (Layer ℚ)}
    {base : List (Affine ℚ)} {gates : List (Gate ℚ)} {signs : List Sign} {found : Partition ℚ}
    (hpending : search.Pending layer rest gates [] [] (.start base search.outputs.length))
    (h : search.partition layer rest base gates signs = .ok found) :
    found.Clear search.dim search.outputs.length base
      fun point => StrictlyInside base (Assignment.ofSigns signs gates).region point := by
  rw [partition_eq_partitionFrom] at h
  have hover := hpending.partitionFrom_over h
  rcases partitionFrom_eq_ok.mp h with ⟨-, hbranch⟩ | ⟨-, rfl⟩
  · have hassigned := hpending.assigned signs
    have hseparates := ((shapedRules_separates search).branch hassigned hbranch).2
    have hadded : ∀ slot ∈ found.pieces, (∀ piece ∈ slot,
        (Assignment.ofSigns signs gates).region ⊆ piece.region) ∧ Separated found.prototypes slot := by
      intro slot hslot
      obtain ⟨place, hplace⟩ := List.mem_iff_getElem?.mp hslot
      have hwithin : place < search.outputs.length :=
        hover.wellFormed.length_eq ▸ (List.getElem?_eq_some_iff.mp hplace).1
      obtain ⟨added, rfl, hinside, hapart⟩ :=
        hseparates place [] slot (List.getElem?_replicate_of_lt hwithin) hplace
      exact ⟨hinside, hapart⟩
    refine ⟨hover, fun slot hslot => (hadded slot hslot).2, fun slot hslot piece hpiece point hpoint => ?_⟩
    exact (strictlyInside_congr (hassigned.refers.sides_eq hover.starts)).mp
      (hpoint.of_subset ((hadded slot hslot).1 piece hpiece))
  · have hclear := Partition.Clear.start hpending.wellFormed.shaped search.outputs.length
    exact ⟨hover, hclear.separated,
      fun slot hslot piece hpiece point hpoint => (hclear.within slot hslot piece hpiece point hpoint).elim⟩

namespace Network

variable {network : Network ℚ} {oracle : Oracle ℚ} {outputs : List Nat} {decomposition : Decomposition ℚ}

theorem separated_of_decomposeOutputs (houtputs : ∀ output ∈ outputs, output < network.outputDim)
    (h : network.decomposeOutputs oracle outputs = .ok decomposition) :
    ∀ slot ∈ decomposition.pieces, Separated decomposition.prototypes slot := by
  obtain ⟨rfl, hdescend⟩ := decomposeOutputs_eq_ok h
  obtain ⟨hformed, hseparates⟩ :=
    (Search.shapedRules_separates _).descend (network.ready oracle houtputs) hdescend
  intro slot hslot
  obtain ⟨place, hplace⟩ := List.mem_iff_getElem?.mp hslot
  have hwithin : place < decomposition.outputs.length :=
    hformed.length_eq ▸ (List.getElem?_eq_some_iff.mp hplace).1
  obtain ⟨added, rfl, -, hapart⟩ :=
    hseparates place [] slot (List.getElem?_replicate_of_lt hwithin) hplace
  exact hapart

theorem separated_of_partitioned (houtputs : ∀ output ∈ outputs, output < network.outputDim)
    {first layer : Layer ℚ} {rest : List (Layer ℚ)} {threads : Nat}
    (hlayers : network.layers = first :: layer :: rest)
    (h : (network.search oracle outputs).partitioned threads layer rest network.firstForms = .ok decomposition) :
    ∀ slot ∈ decomposition.pieces, Separated decomposition.prototypes slot := by
  obtain ⟨gates, found, hgates, hfound, rfl⟩ := partitioned_eq_ok.mp h
  have hpending := pending_firstForms houtputs hlayers hgates
  set count := min threads.log2 (gates.countP Gate.isCut)
  have hclear : List.Forall₂ (fun number part => part.Clear network.inputDim outputs.length network.firstForms
      fun point => StrictlyInside network.firstForms
        (Assignment.ofSigns (partitionSigns count number) gates).region point) (List.range (2 ^ count)) found :=
    (mapM_eq_ok.mp hfound).imp fun _ _ hrun => hpending.partition_clear hrun
  have hlength : ∀ number, (partitionSigns count number).length = count :=
    fun number => (List.length_map _).trans List.length_range
  have hareas : (List.range (2 ^ count)).Pairwise fun number other => ∀ point,
      StrictlyInside network.firstForms (Assignment.ofSigns (partitionSigns count number) gates).region point →
      ¬ StrictlyInside network.firstForms (Assignment.ofSigns (partitionSigns count other) gates).region point := by
    refine List.Pairwise.imp_of_mem (fun {number other} hnumber hother hne => ?_) List.nodup_range
    refine Assignment.apart_ofSigns _ _ ((hlength number).trans (hlength other).symm) ?_ fun heq => hne ?_
    · rw [hlength]
      exact min_le_right _ _
    · exact partitionSigns_injective count (List.mem_range.mp hnumber) (List.mem_range.mp hother) heq
  exact Partition.Clear.foldl_absorb hclear hareas (.start network.shaped_firstForms outputs.length)
    fun _ _ _ hfalse => hfalse.elim

/-- No point lies strictly on the sides of all boundaries of two pieces of a slot, whatever the oracle answers
and however many threads search. -/
theorem open_regions_disjoint (network : Network ℚ) {oracle : Oracle ℚ} {outputs : List Nat}
    {decomposition : Decomposition ℚ}
    (hrun : network.decompose oracle outputs = .ok decomposition ∨
      ∃ threads, network.decomposeParallel oracle outputs threads = .ok decomposition) :
    ∀ pieces ∈ decomposition.pieces, ∀ (i j : Nat) (piece other : Piece), i ≠ j →
      pieces[i]? = some piece → pieces[j]? = some other → ∀ point : List ℚ,
        ¬ (StrictlyInside decomposition.prototypes piece.region point ∧
          StrictlyInside decomposition.prototypes other.region point) := by
  have hseparated : ∀ slot ∈ decomposition.pieces, Separated decomposition.prototypes slot := by
    rcases hrun with hrun | ⟨threads, hrun⟩
    · obtain ⟨requested, hrequested, hwhole⟩ := bind_eq_ok.mp hrun
      exact separated_of_decomposeOutputs (lt_of_requestedOutputs hrequested) hwhole
    · obtain ⟨requested, hrequested, hwhole | ⟨first, layer, rest, hlayers, hparts⟩⟩ :=
        decomposeParallel_cases hrun
      · exact separated_of_decomposeOutputs (lt_of_requestedOutputs hrequested) hwhole
      · exact separated_of_partitioned (lt_of_requestedOutputs hrequested) hlayers hparts
  intro pieces hpieces i j piece other hne hpiece hother point hinside
  obtain ⟨hi, rfl⟩ := List.getElem?_eq_some_iff.mp hpiece
  obtain ⟨hj, rfl⟩ := List.getElem?_eq_some_iff.mp hother
  have hpairs := List.pairwise_iff_getElem.mp (hseparated pieces hpieces)
  rcases lt_or_gt_of_ne hne with hlt | hgt
  · exact hpairs i j hi hj hlt point hinside.1 hinside.2
  · exact hpairs j i hj hi hgt point hinside.2 hinside.1

/-- Two partitions searched with answers that are wrong nearly everywhere: of the six pieces found only one has
the point `3/4` strictly inside. -/
theorem open_regions_disjoint_shifted : ∃ decomposition pieces piece,
    shifted.decomposeParallel lax [0] 2 = .ok decomposition ∧ decomposition.pieces = [pieces] ∧
      pieces.length = 6 ∧ pieces[1]? = some piece ∧
      StrictlyInside decomposition.prototypes piece.region [3 / 4] ∧
      ∀ (j : Nat) (other : Piece), j ≠ 1 → pieces[j]? = some other →
        ¬ StrictlyInside decomposition.prototypes other.region [3 / 4] := by
  have hrun : shifted.decomposeParallel lax [0] 2 = .ok
      ⟨[⟨[-1 / 2, 1]⟩, ⟨[-1 / 2, 1]⟩, ⟨[-3 / 2, 1]⟩, ⟨[0, 0]⟩, ⟨[-1, 0]⟩], [0],
        [[.zero 1 [.geq 0, .leq 1], ⟨[⟨-1, 2⟩, .one], [.geq 0, .geq 1, .leq 2]⟩, .one 1 [.geq 0, .geq 2],
          .zero 1 [.leq 0, .leq 3], .zero 1 [.leq 0, .geq 3, .leq 4], .one 1 [.leq 0, .geq 4]]]⟩ := by
    decide +kernel
  have hinside : StrictlyInside [⟨[-1 / 2, 1]⟩, ⟨[-1 / 2, 1]⟩, ⟨[-3 / 2, 1]⟩, ⟨[0, 0]⟩, ⟨[-1, 0]⟩]
      [.geq 0, .geq 1, .leq 2] [3 / 4] := by
    have hopen : 0 < (⟨[-1 / 2, 1]⟩ : Affine ℚ).evaluate [3 / 4] := by decide +kernel
    have hbelow : (⟨[-3 / 2, 1]⟩ : Affine ℚ).evaluate [3 / 4] < 0 := by decide +kernel
    exact List.forall_mem_cons.mpr ⟨⟨_, rfl, hopen⟩, List.forall_mem_cons.mpr ⟨⟨_, rfl, hopen⟩,
      List.forall_mem_singleton.mpr ⟨_, rfl, hbelow⟩⟩⟩
  refine ⟨_, _, _, hrun, rfl, rfl, rfl, hinside, fun j other hne hother hinside' => ?_⟩
  exact open_regions_disjoint shifted (Or.inr ⟨2, hrun⟩) _ (List.mem_singleton_self _) 1 j _ other hne.symm rfl
    hother [3 / 4] ⟨hinside, hinside'⟩

end Network

end ReluLogic
