import ReluLogic.Proofs.Decomposition.Tracking

/-!
No point is lost. With an oracle that never calls a non-empty region empty, whatever its optima are, every
point of the current region of a search ends up in some piece of each slot: a cut gate is left on no side that
the point lies on, and the candidates of a leaf cover its region.
-/

namespace ReluLogic

/-- Every point of a region lies in some piece of each slot. -/
def Covers (dim : Nat) (before : List (Affine ℚ)) (region : List Boundary) (partition : Partition ℚ) : Prop :=
  ∀ point ∈ unitBox dim, Inside before region point →
    ∀ slot ∈ partition.pieces, ∃ piece ∈ slot, Inside partition.prototypes piece.region point

/-- Further prototypes and pieces do not uncover a point. -/
theorem Covers.grow {dim slots : Nat} {before : List (Affine ℚ)} {region : List Boundary}
    {partition after : Partition ℚ} (h : Covers dim before region partition)
    (hformed : partition.WellFormed dim slots) (hextends : after.Extends partition) :
    Covers dim before region after := by
  intro point hbox hpoint slot hslot
  obtain ⟨place, hplace, rfl⟩ := List.mem_iff_getElem.mp hslot
  have hplace' : place < partition.pieces.length := hextends.pieces.length_eq.symm ▸ hplace
  have hprefix := hextends.pieces.get hplace' hplace
  obtain ⟨piece, hpiece, hinside⟩ := h point hbox hpoint _ (List.getElem_mem hplace')
  have hrefers := (hformed.pieces _ (List.getElem_mem hplace') piece hpiece).2
  exact ⟨piece, hprefix.subset hpiece, (hrefers.inside_iff hextends.prototypes).mpr hinside⟩

namespace Search

variable {search : Search ℚ} {region : List Boundary} {point : List ℚ}

/-- No point of the box lies in a region that is found empty. -/
theorem not_inside_of_isFeasible (h : search.oracle.Permissive search.dim) {prototypes : List (Affine ℚ)}
    (hshape : Shaped search.dim prototypes) (hfound : search.isFeasible prototypes region = .ok false)
    (hbox : point ∈ unitBox search.dim) : ¬ Inside prototypes region point := by
  intro hpoint
  obtain ⟨constraints, hconstraints, hfound⟩ := bind_eq_ok.mp hfound
  have hnone := h _ _ (Affine.length_zero search.dim) (hshape.uniform hconstraints)
    (Oracle.isFeasible_eq_false_iff.mp hfound)
  have hmem := (mem_feasible_iff hshape hconstraints).mpr ⟨hbox, hpoint⟩
  rw [hnone] at hmem
  exact hmem

/-- Of the candidates on a region one contains a given point of it. -/
theorem Placed.exists_candidate {forms known final : List (Affine ℚ)} {first output : Nat}
    (h : search.Placed forms first output known final) (hforms : Shaped search.dim forms)
    (hregion : Inside final region point) :
    ∃ piece ∈ Search.candidates search.dim (forms.getD output (.zero search.dim)) region (first + output)
      known.length, Inside final piece.region point := by
  have hlength := Affine.length_getD hforms output
  have hlength' := (Affine.length_minusOne (forms.getD output (.zero search.dim))).trans hlength
  have hraw : ∀ sign, sign.admits ((forms.getD output (.zero search.dim)).evaluate point) 0 = true →
      Inside final [⟨first + output, sign⟩] point :=
    fun sign => (inside_singleton h.raw hlength sign).mpr
  have hupper : ∀ sign, sign.admits ((forms.getD output (.zero search.dim)).evaluate point - 1) 0 = true →
      Inside final [⟨known.length, sign⟩] point := by
    intro sign hsign
    rw [← Affine.evaluate_minusOne hlength] at hsign
    exact (inside_singleton h.upper hlength' sign).mpr hsign
  simp only [Search.candidates, List.exists_mem_cons_iff]
  rcases le_total ((forms.getD output (.zero search.dim)).evaluate point) 0 with hzero | hzero
  · exact Or.inl (inside_append.mpr ⟨hregion, hraw .leq ((Sign.admits_leq _).mpr hzero)⟩)
  · rcases le_total ((forms.getD output (.zero search.dim)).evaluate point) 1 with hone | hone
    · refine Or.inr (Or.inl (inside_append.mpr ⟨hregion, ?_⟩))
      exact inside_cons.mpr
        ⟨hraw .geq ((Sign.admits_geq _).mpr hzero), hupper .leq ((Sign.admits_leq _).mpr (sub_nonpos.mpr hone))⟩
    · refine Or.inr (Or.inr (Or.inl (inside_append.mpr ⟨hregion, ?_⟩)))
      exact hupper .geq ((Sign.admits_geq _).mpr (sub_nonneg.mpr hone))

theorem Ready.covers_leaf (h : search.oracle.Permissive search.dim) {forms final : List (Affine ℚ)}
    {state : Partition ℚ} {slots : List (List Piece)} (hready : search.Ready [] forms region state)
    (hemit : search.emit forms state.prototypes.length region search.outputs (state.prototypes ++ forms) =
      .ok (final, slots)) :
    Covers search.dim state.prototypes region ⟨final, appendSlots state.pieces slots⟩ := by
  have hshape : Shaped search.dim final := (hready.leaf hemit).shaped
  intro point hbox hpoint slot hslot
  obtain ⟨place, hplace⟩ := List.mem_iff_getElem?.mp hslot
  obtain ⟨held, added, output, -, houtput, rfl, known, hknown, hafter, hkeep⟩ := hready.leaf_slot hemit hplace
  set extended := known ++ [(forms.getD output (.zero search.dim)).minusOne] with hextended
  have hplaced := hready.placed (List.mem_of_getElem? houtput) hknown List.prefix_rfl
  have hgrow : state.prototypes <+: extended :=
    (List.prefix_append _ _).trans (hknown.trans (List.prefix_append _ _))
  have hregion : Inside extended region point := (hready.refers.inside_iff hgrow).mpr hpoint
  obtain ⟨piece, hpiece, hinside⟩ := hplaced.exists_candidate hready.shaped hregion
  have hrefers := (hplaced.candidates hready.shaped (hready.refers.mono hgrow) piece hpiece).2
  refine ⟨piece, List.mem_append_right held ?_, (hrefers.inside_iff hafter).mpr hinside⟩
  rcases (mem_of_keepFeasible _ hkeep).2 hpiece with hkept | hempty
  · exact hkept
  · have hshape' : Shaped search.dim extended := fun form hform => hshape form (hafter.subset hform)
    exact absurd hinside (not_inside_of_isFeasible h hshape' hempty hbox)

/-- A search loses no point of its region. -/
theorem shapedRules_covers (h : search.oracle.Permissive search.dim) :
    search.ShapedRules
      (fun _ _ region state result => Covers search.dim state.prototypes region result)
      (fun _ _ _ _ region state result => Covers search.dim state.prototypes region result) where
  leaf hready hemit := hready.covers_leaf h hemit
  layer hready _ hresolved point hbox hpoint :=
    hresolved point hbox ((hready.refers.inside_iff (List.prefix_append _ _)).mpr hpoint)
  done _ hexplored := hexplored
  fixed _ _ hresolved := hresolved
  cut {_ _ gate _ _ region state middle result} hpending _ hmiddle hresult hformed hgeq hleq := by
    have hpending' := hpending.grow hformed hmiddle
    intro point hbox hpoint
    have hpoint' : Inside middle.prototypes region point :=
      (hpending.refers.inside_iff hmiddle.prototypes).mpr hpoint
    rcases le_total 0 (gate.form.evaluate point) with hsign | hsign
    · have hinside := hpending.inside_cut_iff.mpr ⟨hpoint, (Sign.admits_geq _).mpr hsign⟩
      rcases hgeq with ⟨-, hopen⟩ | ⟨hempty, -⟩
      · exact (hopen.grow hformed hresult) point hbox hinside
      · exact absurd hinside (not_inside_of_isFeasible h hpending.wellFormed.shaped hempty hbox)
    · have hinside := hpending'.inside_cut_iff.mpr ⟨hpoint', (Sign.admits_leq _).mpr hsign⟩
      rcases hleq with ⟨-, hclosed⟩ | ⟨hempty, -⟩
      · exact hclosed point hbox hinside
      · exact absurd hinside (not_inside_of_isFeasible h hpending'.wellFormed.shaped hempty hbox)

end Search

end ReluLogic
