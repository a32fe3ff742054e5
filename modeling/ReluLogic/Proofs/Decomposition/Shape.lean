import ReluLogic.Proofs.Decomposition.Region
import ReluLogic.Proofs.Decomposition.Walk

/-!
Shapes along a search. A search that starts with forms over the inputs of the network keeps every prototype
and every piece over these inputs, and every boundary within the prototypes; with an oracle that answers
coherently it also succeeds. `Search.ShapedRules` hands these facts to an induction over searches.
-/

namespace ReluLogic

/-- The number of values behind layers when `width` values come in. -/
def lastWidth {α : Type} : List (Layer α) → Nat → Nat
  | [], width => width
  | layer :: rest, _ => lastWidth rest layer.length

section Appending

variable {slots more : List (List Piece)}

theorem appendSlots_eq_zipWith (h : slots.length = more.length) :
    appendSlots slots more = List.zipWith (· ++ ·) slots more := by
  induction slots generalizing more with
  | nil => rfl
  | cons held slots ih =>
      cases more with
      | nil => cases h
      | cons pieces more =>
          rw [appendSlots, ih (Nat.succ.inj h), List.zipWith_cons_cons]

theorem length_appendSlots (h : slots.length = more.length) :
    (appendSlots slots more).length = slots.length := by
  rw [appendSlots_eq_zipWith h, List.length_zipWith, ← h, min_self]

/-- The pieces of a slot are those held and those put behind them. -/
theorem getElem?_appendSlots (h : slots.length = more.length) {place : Nat} {slot : List Piece} :
    (appendSlots slots more)[place]? = some slot ↔
      ∃ held added, slots[place]? = some held ∧ more[place]? = some added ∧ slot = held ++ added := by
  rw [appendSlots_eq_zipWith h, List.getElem?_zipWith_eq_some]
  exact ⟨fun ⟨held, added, hheld, hadded, heq⟩ => ⟨held, added, hheld, hadded, heq.symm⟩,
    fun ⟨held, added, hheld, hadded, heq⟩ => ⟨held, added, hheld, hadded, heq.symm⟩⟩

end Appending

/-- A partition over `dim` inputs: all prototypes and pieces have that many inputs, there are `slots` lists
of pieces, and their boundaries refer to the prototypes. -/
structure Partition.WellFormed {α : Type} (dim slots : Nat) (partition : Partition α) : Prop where
  shaped : Shaped dim partition.prototypes
  length_eq : partition.pieces.length = slots
  pieces : ∀ slot ∈ partition.pieces, ∀ piece ∈ slot,
    piece.coefficients.length = dim + 1 ∧ Refers partition.prototypes piece.region

namespace Partition.WellFormed

variable {α : Type} {dim slots : Nat} {partition : Partition α}

theorem start {prototypes : List (Affine α)} (h : Shaped dim prototypes) (slots : Nat) :
    (Partition.start prototypes slots).WellFormed dim slots where
  shaped := h
  length_eq := List.length_replicate
  pieces slot hslot piece hpiece := by
    rw [List.eq_of_mem_replicate hslot] at hpiece
    exact absurd hpiece List.not_mem_nil

/-- Further prototypes leave the pieces where they are. -/
theorem extend (h : partition.WellFormed dim slots) {forms : List (Affine α)} (hforms : Shaped dim forms) :
    (⟨partition.prototypes ++ forms, partition.pieces⟩ : Partition α).WellFormed dim slots where
  shaped := shaped_append.mpr ⟨h.shaped, hforms⟩
  length_eq := h.length_eq
  pieces slot hslot piece hpiece :=
    ⟨(h.pieces slot hslot piece hpiece).1,
      (h.pieces slot hslot piece hpiece).2.mono (List.prefix_append _ _)⟩

end Partition.WellFormed

namespace Affine

variable {α : Type} [Scalar α] {dim : Nat}

theorem length_minusOne (form : Affine α) : form.minusOne.coefficients.length = form.coefficients.length := by
  obtain ⟨coefficients⟩ := form
  cases coefficients <;> rfl

theorem length_getD {forms : List (Affine α)} (h : Shaped dim forms) (place : Nat) :
    (forms.getD place (.zero dim)).coefficients.length = dim + 1 := by
  rcases lt_or_ge place forms.length with hplace | hplace
  · rw [List.getD_eq_getElem _ _ hplace]
    exact h _ (List.getElem_mem hplace)
  · rw [List.getD_eq_default _ _ hplace]
    exact length_zero dim

end Affine

namespace Search

variable {α : Type} [Scalar α] {search : Search α}

theorem length_compose {dim : Nat} {values : List (Affine α)} (h : Shaped dim values) (node : Node α) :
    (compose dim values node).coefficients.length = dim + 1 := by
  have hfold : ∀ (pairs : List (Affine α × α)) (total : List α), (∀ pair ∈ pairs, pair.1 ∈ values) →
      total.length = dim + 1 →
        (pairs.foldl (fun total pair =>
          List.zipWith (fun c v => c + v * pair.2) total pair.1.coefficients) total).length = dim + 1 := by
    intro pairs
    induction pairs with
    | nil => exact fun total _ htotal => htotal
    | cons pair pairs ih =>
        intro total hpairs htotal
        obtain ⟨hpair, hrest⟩ := List.forall_mem_cons.mp hpairs
        refine ih _ hrest ?_
        rw [List.length_zipWith, htotal, h _ hpair, min_self]
  exact hfold _ _ (fun pair hpair => (List.of_mem_zip hpair).1)
    (by rw [List.length_cons, List.length_replicate])

theorem length_output (gate : Gate α) (sign : Sign) {dim : Nat}
    (h : gate.form.coefficients.length = dim + 1) :
    (gate.output sign).coefficients.length = dim + 1 := by
  cases sign with
  | geq => exact h
  | leq =>
      rw [Gate.output, Affine.length_zero, Affine.dim, h]
      rfl

/-! ### Gates -/

/-- The gates of a layer in order, each with the place of its form and the position the oracle gives it. -/
theorem classify_spec {prototypes forms : List (Affine α)} {region : List Boundary} {first : Nat}
    {gates : List (Gate α)} (h : search.classify prototypes forms region first = .ok gates) :
    ∃ constraints, regionConstraints prototypes region = .ok constraints ∧ gates.map Gate.form = forms ∧
      ∀ place gate, gates[place]? = some gate → gate.index = first + place ∧
        search.oracle.position gate.form constraints = .ok gate.position := by
  obtain ⟨constraints, hconstraints, h⟩ := bind_eq_ok.mp h
  obtain ⟨positions, hpositions, h⟩ := bind_eq_ok.mp h
  cases h
  have hall := mapM_eq_ok.mp hpositions
  refine ⟨constraints, hconstraints, ?_, fun place gate hgate => ?_⟩
  · have hforms : List.map Prod.fst (forms.zip positions) = forms :=
      List.map_fst_zip hall.length_eq.le
    refine List.ext_getElem? fun place => ?_
    conv_rhs => rw [← hforms]
    rw [List.getElem?_map, List.getElem?_map, List.getElem?_mapIdx]
    cases (forms.zip positions)[place]? <;> rfl
  · rw [List.getElem?_mapIdx, Option.map_eq_some_iff] at hgate
    obtain ⟨⟨form, position⟩, hpair, rfl⟩ := hgate
    obtain ⟨hform, hposition⟩ := List.getElem?_zip_eq_some.mp hpair
    refine ⟨rfl, ?_⟩
    obtain ⟨hplace, rfl⟩ := List.getElem?_eq_some_iff.mp hform
    obtain ⟨hplace', rfl⟩ := List.getElem?_eq_some_iff.mp hposition
    exact hall.get hplace hplace'

/-- What a search may start from: forms over the inputs, a region within the prototypes, and as many values
behind the last layer as the outputs ask for. -/
structure Ready (search : Search α) (layers : List (Layer α)) (forms : List (Affine α))
    (region : List Boundary) (state : Partition α) : Prop where
  wellFormed : state.WellFormed search.dim search.outputs.length
  shaped : Shaped search.dim forms
  refers : Refers state.prototypes region
  width : ∀ output ∈ search.outputs, output < lastWidth layers forms.length

/-- The same among the gates before a layer: the gates that are left are prototypes, the values behind the
others are forms over the inputs. -/
structure Pending (search : Search α) (layer : Layer α) (rest : List (Layer α)) (gates : List (Gate α))
    (values : List (Affine α)) (region : List Boundary) (state : Partition α) : Prop where
  wellFormed : state.WellFormed search.dim search.outputs.length
  known : ∀ gate ∈ gates, gate.form.coefficients.length = search.dim + 1 ∧
    state.prototypes[gate.index]? = some gate.form
  shaped : Shaped search.dim values
  refers : Refers state.prototypes region
  width : ∀ output ∈ search.outputs, output < lastWidth rest layer.length

section Steps

variable {layer : Layer α} {rest : List (Layer α)} {forms values : List (Affine α)} {gate : Gate α}
  {gates : List (Gate α)} {region : List Boundary} {state after : Partition α}

theorem Ready.classified (h : search.Ready (layer :: rest) forms region state)
    (hgates : search.classify (state.prototypes ++ forms) forms region state.prototypes.length =
      .ok gates) :
    search.Pending layer rest gates [] region ⟨state.prototypes ++ forms, state.pieces⟩ where
  wellFormed := h.wellFormed.extend h.shaped
  known gate hgate := by
    obtain ⟨constraints, -, hforms, hplaces⟩ := classify_spec hgates
    obtain ⟨place, hplace⟩ := List.mem_iff_getElem?.mp hgate
    have hform : forms[place]? = some gate.form := by
      rw [← hforms, List.getElem?_map, hplace, Option.map_some]
    refine ⟨h.shaped _ (List.mem_of_getElem? hform), ?_⟩
    rw [(hplaces place gate hplace).1, List.getElem?_append_right (Nat.le_add_right _ _),
      Nat.add_sub_cancel_left, hform]
  shaped form hform := absurd hform List.not_mem_nil
  refers := h.refers.mono (List.prefix_append _ _)
  width := h.width

theorem Pending.done (h : search.Pending layer rest [] values region state) :
    search.Ready rest (layer.map (compose search.dim values)) region state where
  wellFormed := h.wellFormed
  shaped form hform := by
    obtain ⟨node, -, rfl⟩ := List.mem_map.mp hform
    exact length_compose h.shaped node
  refers := h.refers
  width output houtput := by
    rw [List.length_map]
    exact h.width output houtput

theorem Pending.fixed (h : search.Pending layer rest (gate :: gates) values region state) (sign : Sign) :
    search.Pending layer rest gates (values ++ [gate.output sign]) region state where
  wellFormed := h.wellFormed
  known other hother := h.known other (List.mem_cons_of_mem _ hother)
  shaped := shaped_append.mpr ⟨h.shaped, List.forall_mem_singleton.mpr
    (length_output gate sign (h.known gate List.mem_cons_self).1)⟩
  refers := h.refers
  width := h.width

omit [Scalar α] in
theorem Pending.grow (h : search.Pending layer rest gates values region state)
    (hafter : after.WellFormed search.dim search.outputs.length) (hextends : after.Extends state) :
    search.Pending layer rest gates values region after where
  wellFormed := hafter
  known gate hgate := by
    obtain ⟨hlength, hform⟩ := h.known gate hgate
    refine ⟨hlength, ?_⟩
    rw [getElem?_of_extends hextends.prototypes (List.getElem?_eq_some_iff.mp hform).1, hform]
  shaped := h.shaped
  refers := h.refers.mono hextends.prototypes
  width := h.width

theorem Pending.cut (h : search.Pending layer rest (gate :: gates) values region state) (sign : Sign) :
    search.Pending layer rest gates (values ++ [gate.output sign]) (region ++ [gate.boundary sign])
      state where
  wellFormed := h.wellFormed
  known := (h.fixed sign).known
  shaped := (h.fixed sign).shaped
  refers := refers_append.mpr ⟨h.refers, List.forall_mem_singleton.mpr
    (List.getElem?_eq_some_iff.mp (h.known gate List.mem_cons_self).2).1⟩
  width := h.width

end Steps

/-! ### Leaves -/

/-- The places of an output's prototypes: its form, and its form less one. -/
structure Placed (search : Search α) (forms : List (Affine α)) (first output : Nat)
    (known after : List (Affine α)) : Prop where
  raw : after[first + output]? = some (forms.getD output (.zero search.dim))
  upper : after[known.length]? = some (forms.getD output (.zero search.dim)).minusOne

variable {forms : List (Affine α)} {region : List Boundary} {state : Partition α}

theorem Ready.placed (h : search.Ready [] forms region state) {output : Nat}
    (houtput : output ∈ search.outputs) {known after : List (Affine α)}
    (hknown : state.prototypes ++ forms <+: known)
    (hafter : known ++ [(forms.getD output (.zero search.dim)).minusOne] <+: after) :
    search.Placed forms state.prototypes.length output known after where
  raw := by
    have hwidth : output < forms.length := h.width output houtput
    have hplace : state.prototypes.length + output < (state.prototypes ++ forms).length := by
      rw [List.length_append]
      exact Nat.add_lt_add_left hwidth _
    rw [getElem?_of_extends (hknown.trans ((List.prefix_append _ _).trans hafter)) hplace,
      List.getElem?_append_right (Nat.le_add_right _ _), Nat.add_sub_cancel_left,
      List.getElem?_eq_getElem hwidth, List.getD_eq_getElem _ _ hwidth]
  upper := by
    rw [getElem?_of_extends hafter (by rw [List.length_append]; exact Nat.lt_succ_self _),
      List.getElem?_append_right le_rfl, Nat.sub_self]
    rfl

theorem Placed.candidates {output first : Nat} {known after : List (Affine α)}
    (h : search.Placed forms first output known after) (hforms : Shaped search.dim forms)
    (hregion : Refers after region) :
    ∀ piece ∈ candidates search.dim (forms.getD output (.zero search.dim)) region (first + output)
      known.length,
      piece.coefficients.length = search.dim + 1 ∧ Refers after piece.region := by
  have hraw : first + output < after.length := (List.getElem?_eq_some_iff.mp h.raw).1
  have hupper : known.length < after.length := (List.getElem?_eq_some_iff.mp h.upper).1
  intro piece hpiece
  rcases mem_candidates.mp hpiece with rfl | rfl | rfl
  · exact ⟨List.length_replicate,
      refers_append.mpr ⟨hregion, List.forall_mem_singleton.mpr hraw⟩⟩
  · refine ⟨(List.length_map _).trans (Affine.length_getD hforms output),
      refers_append.mpr ⟨hregion, List.forall_mem_cons.mpr ⟨hraw, ?_⟩⟩⟩
    exact List.forall_mem_singleton.mpr hupper
  · exact ⟨congrArg (· + 1) List.length_replicate,
      refers_append.mpr ⟨hregion, List.forall_mem_singleton.mpr hupper⟩⟩

section Leaf

variable {final : List (Affine α)} {slots : List (List Piece)}

/-- The prototypes of a leaf are kept, with the forms behind them. -/
theorem prefix_of_emit (hemit : search.emit forms state.prototypes.length region search.outputs
    (state.prototypes ++ forms) = .ok (final, slots)) : state.prototypes <+: final := by
  rw [(emit_spec _ hemit).1]
  exact (List.prefix_append _ _).trans (List.prefix_append _ _)

/-- A leaf puts the pieces emitted for an output behind those that were held at its place. -/
theorem Ready.leaf_slot (h : search.Ready [] forms region state)
    (hemit : search.emit forms state.prototypes.length region search.outputs (state.prototypes ++ forms) =
      .ok (final, slots)) {place : Nat} {slot : List Piece}
    (hslot : (appendSlots state.pieces slots)[place]? = some slot) :
    ∃ held added output, state.pieces[place]? = some held ∧ search.outputs[place]? = some output ∧
      slot = held ++ added ∧
        search.Emitted forms state.prototypes.length region (state.prototypes ++ forms) final output added := by
  obtain ⟨hlength, hemitted⟩ := emitted_of_getElem? hemit
  obtain ⟨held, added, hheld, hadded, rfl⟩ :=
    (getElem?_appendSlots (h.wellFormed.length_eq.trans hlength.symm)).mp hslot
  have hwithin : place < search.outputs.length := hlength ▸ (List.getElem?_eq_some_iff.mp hadded).1
  have houtput := List.getElem?_eq_getElem hwithin
  exact ⟨held, added, _, hheld, houtput, rfl, hemitted place _ added houtput hadded⟩

theorem Ready.leaf (h : search.Ready [] forms region state)
    (hemit : search.emit forms state.prototypes.length region search.outputs
      (state.prototypes ++ forms) = .ok (final, slots)) :
    (⟨final, appendSlots state.pieces slots⟩ : Partition α).WellFormed search.dim
      search.outputs.length := by
  have hgrow := prefix_of_emit hemit
  have hsame : state.pieces.length = slots.length :=
    h.wellFormed.length_eq.trans (emitted_of_getElem? hemit).1.symm
  refine ⟨?_, (length_appendSlots hsame).trans h.wellFormed.length_eq, fun slot hslot piece hpiece => ?_⟩
  · obtain ⟨rfl, -⟩ := emit_spec _ hemit
    refine shaped_append.mpr ⟨shaped_append.mpr ⟨h.wellFormed.shaped, h.shaped⟩, fun form hform => ?_⟩
    obtain ⟨output, -, rfl⟩ := List.mem_map.mp hform
    rw [Affine.length_minusOne, Affine.length_getD h.shaped]
  · obtain ⟨place, hplace⟩ := List.mem_iff_getElem?.mp hslot
    obtain ⟨held, added, output, hheld, houtput, rfl, known, hknown, hafter, hkeep⟩ := h.leaf_slot hemit hplace
    rcases List.mem_append.mp hpiece with hpiece | hpiece
    · obtain ⟨hcoefficients, hrefers⟩ := h.wellFormed.pieces held (List.mem_of_getElem? hheld) piece hpiece
      exact ⟨hcoefficients, hrefers.mono hgrow⟩
    · have hplaced := h.placed (List.mem_of_getElem? houtput) hknown hafter
      exact hplaced.candidates h.shaped (h.refers.mono hgrow) piece
        ((mem_of_keepFeasible _ hkeep).1 hpiece).1

end Leaf

/-! ### Induction -/

/-- What an induction over searches has to show when shapes are taken for granted. -/
structure ShapedRules (search : Search α)
    (Explored : List (Layer α) → List (Affine α) → List Boundary → Partition α → Partition α → Prop)
    (Resolved : Layer α → List (Layer α) → List (Gate α) → List (Affine α) → List Boundary →
      Partition α → Partition α → Prop) : Prop where
  leaf : ∀ {forms region state final slots}, search.Ready [] forms region state →
    search.emit forms state.prototypes.length region search.outputs (state.prototypes ++ forms) =
      .ok (final, slots) →
    Explored [] forms region state ⟨final, appendSlots state.pieces slots⟩
  layer : ∀ {layer rest forms region state gates result},
    search.Ready (layer :: rest) forms region state →
    search.classify (state.prototypes ++ forms) forms region state.prototypes.length = .ok gates →
    Resolved layer rest gates [] region ⟨state.prototypes ++ forms, state.pieces⟩ result →
    Explored (layer :: rest) forms region state result
  done : ∀ {layer rest values region state result},
    search.Pending layer rest [] values region state →
    Explored rest (layer.map (compose search.dim values)) region state result →
    Resolved layer rest [] values region state result
  fixed : ∀ {layer rest gate gates values region state result sign},
    search.Pending layer rest (gate :: gates) values region state →
    gate.position.sign? = some sign →
    Resolved layer rest gates (values ++ [gate.output sign]) region state result →
    Resolved layer rest (gate :: gates) values region state result
  cut : ∀ {layer rest gate gates values region state middle result},
    search.Pending layer rest (gate :: gates) values region state →
    gate.position = .cutting →
    middle.Extends state → result.Extends middle →
    middle.WellFormed search.dim search.outputs.length →
    search.Half (Resolved layer rest gates) gate values region .geq state middle →
    search.Half (Resolved layer rest gates) gate values region .leq middle result →
    Resolved layer rest (gate :: gates) values region state result

namespace ShapedRules

variable
  {Explored : List (Layer α) → List (Affine α) → List Boundary → Partition α → Partition α → Prop}
  {Resolved : Layer α → List (Layer α) → List (Gate α) → List (Affine α) → List Boundary →
    Partition α → Partition α → Prop}

/-- One way of a cut gate keeps the shapes and what is shown of the search behind it. -/
theorem half {gate : Gate α} {values : List (Affine α)} {region : List Boundary}
    {state result : Partition α} {sign : Sign} {Start : List (Affine α) → List Boundary → Partition α → Prop}
    {Found : List (Affine α) → List Boundary → Partition α → Partition α → Prop}
    (h : search.Half (fun values region state result => result.Extends state ∧
      (Start values region state →
        result.WellFormed search.dim search.outputs.length ∧ Found values region state result))
      gate values region sign state result) :
    result.Extends state ∧
      (Start (values ++ [gate.output sign]) (region ++ [gate.boundary sign]) state →
        state.WellFormed search.dim search.outputs.length →
          result.WellFormed search.dim search.outputs.length ∧
            search.Half Found gate values region sign state result) := by
  rcases h with ⟨hfeasible, hextends, himp⟩ | ⟨hempty, rfl⟩
  · exact ⟨hextends, fun hstart _ => ⟨(himp hstart).1, Or.inl ⟨hfeasible, (himp hstart).2⟩⟩⟩
  · exact ⟨.refl _, fun _ hstate => ⟨hstate, Or.inr ⟨hempty, rfl⟩⟩⟩

theorem rules (rules : search.ShapedRules Explored Resolved) : search.Rules
    (fun layers forms region state result => result.Extends state ∧
      (search.Ready layers forms region state →
        result.WellFormed search.dim search.outputs.length ∧ Explored layers forms region state result))
    (fun layer rest gates values region state result => result.Extends state ∧
      (search.Pending layer rest gates values region state →
        result.WellFormed search.dim search.outputs.length ∧
          Resolved layer rest gates values region state result)) where
  leaf hemit := by
    obtain ⟨hfinal, -⟩ := emit_spec _ hemit
    refine ⟨⟨?_, appendSlots_extends _ _⟩, fun hready => ⟨hready.leaf hemit, rules.leaf hready hemit⟩⟩
    rw [hfinal]
    exact (List.prefix_append _ _).trans (List.prefix_append _ _)
  layer hgates h := by
    refine ⟨h.1.trans ⟨List.prefix_append _ _, (Partition.Extends.refl _).pieces⟩, fun hready => ?_⟩
    obtain ⟨hresult, hresolved⟩ := h.2 (hready.classified hgates)
    exact ⟨hresult, rules.layer hready hgates hresolved⟩
  done h := ⟨h.1, fun hpending =>
    ⟨(h.2 hpending.done).1, rules.done hpending (h.2 hpending.done).2⟩⟩
  fixed hsign h := ⟨h.1, fun hpending =>
    ⟨(h.2 (hpending.fixed _)).1, rules.fixed hpending hsign (h.2 (hpending.fixed _)).2⟩⟩
  cut hcut hgeq hleq := by
    obtain ⟨hmiddle, hgeq⟩ := half hgeq
    obtain ⟨hresult, hleq⟩ := half hleq
    refine ⟨hresult.trans hmiddle, fun hpending => ?_⟩
    obtain ⟨hformed, hfirst⟩ := hgeq (hpending.cut .geq) hpending.wellFormed
    obtain ⟨hformed', hsecond⟩ := hleq ((hpending.grow hformed hmiddle).cut .leq) hformed
    exact ⟨hformed', rules.cut hpending hcut hmiddle hresult hformed hfirst hsecond⟩

/-- What shaped rules show holds of every successful search from a layer on. -/
theorem descend (rules : search.ShapedRules Explored Resolved) {layers : List (Layer α)}
    {forms : List (Affine α)} {region : List Boundary} {state result : Partition α}
    (hready : search.Ready layers forms region state)
    (h : search.descend layers forms region state = .ok result) :
    result.WellFormed search.dim search.outputs.length ∧ Explored layers forms region state result :=
  (rules.rules.descend layers h).2 hready

/-- What shaped rules show holds of every successful search among gates. -/
theorem branch (rules : search.ShapedRules Explored Resolved) {layer : Layer α} {rest : List (Layer α)}
    {gates : List (Gate α)} {values : List (Affine α)} {region : List Boundary}
    {state result : Partition α} (hpending : search.Pending layer rest gates values region state)
    (h : search.branch (search.below layer rest) gates values region state = .ok result) :
    result.WellFormed search.dim search.outputs.length ∧
      Resolved layer rest gates values region state result :=
  (rules.rules.branch h).2 hpending

end ShapedRules

/-- Shapes alone are kept by every search. -/
theorem shapedRules_true (search : Search α) :
    search.ShapedRules (fun _ _ _ _ _ => True) (fun _ _ _ _ _ _ _ => True) where
  leaf _ _ := trivial
  layer _ _ _ := trivial
  done _ _ := trivial
  fixed _ _ _ := trivial
  cut _ _ _ _ _ _ _ := trivial

end Search

end ReluLogic
