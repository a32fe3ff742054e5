import ReluLogic.Decomposition.Partitioned
import ReluLogic.Proofs.Fallible

/-!
Induction over a successful search. A search that succeeds has passed through layers, resolved gates, and
emitted pieces at its leaves; what holds at the leaves and is kept by every way of resolving a gate holds of
the whole search. A search only puts further prototypes and pieces behind those it starts with.
-/

namespace ReluLogic

/-- The sign of a gate that keeps one on its region. -/
def Position.sign? : Position → Option Sign
  | .over => some .geq
  | .under => some .leq
  | .cutting => none

theorem Position.sign?_eq_none_iff {position : Position} : position.sign? = none ↔ position = .cutting := by
  cases position <;> simp [sign?]

theorem Gate.isCut_eq_isNone {α : Type} (gate : Gate α) : gate.isCut = gate.position.sign?.isNone := by
  unfold isCut
  cases gate.position <;> rfl

namespace Search

variable {α : Type} [Scalar α] {search : Search α}

/-- One way of a cut gate: it is explored where the oracle finds it non-empty and left alone otherwise. -/
def Half (search : Search α)
    (Explored : List (Affine α) → List Boundary → Partition α → Partition α → Prop)
    (gate : Gate α) (values : List (Affine α)) (region : List Boundary) (sign : Sign)
    (state result : Partition α) : Prop :=
  (search.isFeasible state.prototypes (region ++ [gate.boundary sign]) = .ok true ∧
    Explored (values ++ [gate.output sign]) (region ++ [gate.boundary sign]) state result) ∨
  (search.isFeasible state.prototypes (region ++ [gate.boundary sign]) = .ok false ∧ result = state)

/-- What exploring keeps, one way of a cut gate keeps. -/
theorem Half.keeps {Held : Partition α → Prop} {gate : Gate α} {values : List (Affine α)} {region : List Boundary}
    {sign : Sign} {state result : Partition α}
    (h : search.Half (fun _ _ state result => Held state → Held result) gate values region sign state result)
    (hheld : Held state) : Held result := by
  rcases h with ⟨-, hexplored⟩ | ⟨-, rfl⟩
  · exact hexplored hheld
  · exact hheld

section Branch

variable {leaf : List (Affine α) → List Boundary → Partition α → Except Error (Partition α)}
  {gate : Gate α} {rest : List (Gate α)} {values : List (Affine α)} {region : List Boundary}
  {state result : Partition α}

theorem branch_of_sign? {sign : Sign} (h : gate.position.sign? = some sign) :
    search.branch leaf (gate :: rest) values region state =
      search.branch leaf rest (values ++ [gate.output sign]) region state := by
  rcases hposition : gate.position <;> rw [hposition] at h <;> cases h <;> simp only [branch, hposition]

omit [Scalar α] in
theorem half_eq_ok (next : Except Error (Partition α)) {feasible : Except Error Bool} :
    (feasible >>= fun found => if found = true then next else pure state) = .ok result ↔
      (feasible = .ok true ∧ next = .ok result) ∨ (feasible = .ok false ∧ result = state) := by
  rw [bind_eq_ok]
  constructor
  · rintro ⟨found, hfound, hnext⟩
    cases found with
    | true => exact Or.inl ⟨hfound, hnext⟩
    | false =>
        cases hnext
        exact Or.inr ⟨hfound, rfl⟩
  · rintro (⟨hfound, hnext⟩ | ⟨hfound, rfl⟩)
    · exact ⟨true, hfound, hnext⟩
    · exact ⟨false, hfound, rfl⟩

theorem branch_of_cutting (h : gate.position = .cutting) :
    search.branch leaf (gate :: rest) values region state = .ok result ↔
      ∃ middle,
        search.Half (fun values region state result =>
          search.branch leaf rest values region state = .ok result)
          gate values region .geq state middle ∧
        search.Half (fun values region state result =>
          search.branch leaf rest values region state = .ok result)
          gate values region .leq middle result := by
  simp only [branch, h]
  rw [bind_eq_ok]
  refine exists_congr fun middle => and_congr ?_ ?_
  · exact half_eq_ok _
  · exact half_eq_ok _

end Branch

/-- What an induction over searches has to show: of a layer's gates resolved one after the other, and of
the layers. `Resolved` speaks of the gates of a layer that lies before `layer` and `rest`. -/
structure Rules (search : Search α)
    (Explored : List (Layer α) → List (Affine α) → List Boundary → Partition α → Partition α → Prop)
    (Resolved : Layer α → List (Layer α) → List (Gate α) → List (Affine α) → List Boundary →
      Partition α → Partition α → Prop) : Prop where
  leaf : ∀ {forms region state final slots},
    search.emit forms state.prototypes.length region search.outputs (state.prototypes ++ forms) =
      .ok (final, slots) →
    Explored [] forms region state ⟨final, appendSlots state.pieces slots⟩
  layer : ∀ {layer rest forms region state gates result},
    search.classify (state.prototypes ++ forms) forms region state.prototypes.length = .ok gates →
    Resolved layer rest gates [] region ⟨state.prototypes ++ forms, state.pieces⟩ result →
    Explored (layer :: rest) forms region state result
  done : ∀ {layer rest values region state result},
    Explored rest (layer.map (compose search.dim values)) region state result →
    Resolved layer rest [] values region state result
  fixed : ∀ {layer rest gate gates values region state result sign},
    gate.position.sign? = some sign →
    Resolved layer rest gates (values ++ [gate.output sign]) region state result →
    Resolved layer rest (gate :: gates) values region state result
  cut : ∀ {layer rest gate gates values region state middle result},
    gate.position = .cutting →
    search.Half (Resolved layer rest gates) gate values region .geq state middle →
    search.Half (Resolved layer rest gates) gate values region .leq middle result →
    Resolved layer rest (gate :: gates) values region state result

/-- The continuation of a layer's gates: the search from the next layer on. -/
def below (search : Search α) (layer : Layer α) (rest : List (Layer α)) (values : List (Affine α))
    (region : List Boundary) (state : Partition α) : Except Error (Partition α) :=
  search.descend rest (layer.map (compose search.dim values)) region state

namespace Rules

variable
  {Explored : List (Layer α) → List (Affine α) → List Boundary → Partition α → Partition α → Prop}
  {Resolved : Layer α → List (Layer α) → List (Gate α) → List (Affine α) → List Boundary →
    Partition α → Partition α → Prop}

theorem half {layer : Layer α} {rest : List (Layer α)} {gates : List (Gate α)} {gate : Gate α}
    {values : List (Affine α)} {region : List Boundary} {state result : Partition α} {sign : Sign}
    {Found : List (Affine α) → List Boundary → Partition α → Partition α → Prop}
    (h : search.Half Found gate values region sign state result)
    (himp : ∀ {values region state result}, Found values region state result →
      Resolved layer rest gates values region state result) :
    search.Half (Resolved layer rest gates) gate values region sign state result := by
  rcases h with ⟨hfeasible, hfound⟩ | hleft
  · exact Or.inl ⟨hfeasible, himp hfound⟩
  · exact Or.inr hleft

theorem branch_of_below (rules : search.Rules Explored Resolved) {layer : Layer α}
    {rest : List (Layer α)}
    (hbelow : ∀ {forms region state result}, search.descend rest forms region state = .ok result →
      Explored rest forms region state result) (gates : List (Gate α)) :
    ∀ {values region state result},
      search.branch (search.below layer rest) gates values region state = .ok result →
        Resolved layer rest gates values region state result := by
  induction gates with
  | nil =>
      intro values region state result h
      exact rules.done (hbelow h)
  | cons gate gates ih =>
      intro values region state result h
      cases hposition : gate.position.sign? with
      | some sign =>
          rw [branch_of_sign? hposition] at h
          exact rules.fixed hposition (ih h)
      | none =>
          have hcut := Position.sign?_eq_none_iff.mp hposition
          obtain ⟨middle, hgeq, hleq⟩ := (branch_of_cutting hcut).mp h
          exact rules.cut hcut (half hgeq ih) (half hleq ih)

/-- What the rules show holds of every successful search from a layer on. -/
theorem descend (rules : search.Rules Explored Resolved) (layers : List (Layer α)) :
    ∀ {forms region state result}, search.descend layers forms region state = .ok result →
      Explored layers forms region state result := by
  induction layers with
  | nil =>
      intro forms region state result h
      obtain ⟨⟨final, slots⟩, hemit, hresult⟩ := bind_eq_ok.mp h
      cases hresult
      exact rules.leaf hemit
  | cons layer rest ih =>
      intro forms region state result h
      obtain ⟨gates, hclassify, hbranch⟩ := bind_eq_ok.mp h
      exact rules.layer hclassify (rules.branch_of_below ih gates hbranch)

/-- What the rules show holds of every successful search among gates. -/
theorem branch (rules : search.Rules Explored Resolved) {layer : Layer α} {rest : List (Layer α)}
    {gates : List (Gate α)} {values : List (Affine α)} {region : List Boundary}
    {state result : Partition α}
    (h : search.branch (search.below layer rest) gates values region state = .ok result) :
    Resolved layer rest gates values region state result :=
  rules.branch_of_below (rules.descend rest) gates h

end Rules

end Search

/-! ### Growth -/

/-- A partition that starts with the prototypes of another, and each of its slots with the pieces there. -/
structure Partition.Extends {α : Type} (after before : Partition α) : Prop where
  prototypes : before.prototypes <+: after.prototypes
  pieces : List.Forall₂ (· <+: ·) before.pieces after.pieces

theorem forall₂_prefix_trans {β : Type} {first second third : List (List β)}
    (h : List.Forall₂ (· <+: ·) first second) (h' : List.Forall₂ (· <+: ·) second third) :
    List.Forall₂ (· <+: ·) first third := by
  induction h generalizing third with
  | nil => exact h'
  | cons hhead _ ih =>
      cases h' with
      | cons hhead' htail' => exact .cons (hhead.trans hhead') (ih htail')

namespace Partition.Extends

variable {α : Type} {first second third : Partition α}

theorem refl (partition : Partition α) : partition.Extends partition :=
  ⟨List.prefix_rfl, List.forall₂_same.mpr fun _ _ => List.prefix_rfl⟩

theorem trans (h : third.Extends second) (h' : second.Extends first) : third.Extends first where
  prototypes := h'.prototypes.trans h.prototypes
  pieces := forall₂_prefix_trans h'.pieces h.pieces

end Partition.Extends

theorem appendSlots_extends (slots : List (List Piece)) :
    ∀ more, List.Forall₂ (· <+: ·) slots (appendSlots slots more) := by
  induction slots with
  | nil =>
      intro more
      exact .nil
  | cons held slots ih =>
      intro more
      cases more with
      | nil => exact List.forall₂_same.mpr fun _ _ => List.prefix_rfl
      | cons pieces more => exact .cons (List.prefix_append held pieces) (ih more)

namespace Search

variable {α : Type} [Scalar α] {search : Search α}

/-- The pieces of an output, at the place it has among the requested ones: the feasible parts of its form,
judged by prototypes that lie between those before and those after. -/
def Emitted (search : Search α) (forms : List (Affine α)) (first : Nat) (region : List Boundary)
    (before after : List (Affine α)) (output : Nat) (slot : List Piece) : Prop :=
  ∃ known, before <+: known ∧
    known ++ [(forms.getD output (.zero search.dim)).minusOne] <+: after ∧
    search.keepFeasible (known ++ [(forms.getD output (.zero search.dim)).minusOne])
      (candidates search.dim (forms.getD output (.zero search.dim)) region (first + output)
        known.length) = .ok slot

theorem mem_candidates {dim raw upper : Nat} {form : Affine α} {region : List Boundary} {piece : Piece} :
    piece ∈ candidates dim form region raw upper ↔ piece = .zero dim (region ++ [.leq raw]) ∨
      piece = ⟨form.coefficients.map Fraction.ofDecimal, region ++ [.geq raw, .leq upper]⟩ ∨
        piece = .one dim (region ++ [.geq upper]) := by
  simp only [candidates, List.mem_cons, List.not_mem_nil, or_false]

theorem emit_spec {forms : List (Affine α)} {first : Nat} {region : List Boundary}
    (outputs : List Nat) :
    ∀ {prototypes final slots}, search.emit forms first region outputs prototypes = .ok (final, slots) →
      final = prototypes ++ outputs.map (fun output => (forms.getD output (.zero search.dim)).minusOne) ∧
        List.Forall₂ (search.Emitted forms first region prototypes final) outputs slots := by
  induction outputs with
  | nil =>
      intro prototypes final slots h
      cases h
      exact ⟨(List.append_nil _).symm, .nil⟩
  | cons output outputs ih =>
      intro prototypes final slots h
      obtain ⟨pieces, hkeep, h⟩ := bind_eq_ok.mp h
      obtain ⟨⟨last, others⟩, hrest, h⟩ := bind_eq_ok.mp h
      cases h
      obtain ⟨rfl, hothers⟩ := ih hrest
      refine ⟨by rw [List.map_cons, List.append_assoc, List.singleton_append],
        .cons ⟨prototypes, List.prefix_rfl, List.prefix_append _ _, hkeep⟩ (hothers.imp ?_)⟩
      rintro other slot ⟨known, hbefore, hafter, hslot⟩
      exact ⟨known, (List.prefix_append _ _).trans hbefore, hafter, hslot⟩

/-- The pieces emitted for an output, by the place that it has among the requested ones. -/
theorem emitted_of_getElem? {forms : List (Affine α)} {first : Nat} {region : List Boundary}
    {outputs : List Nat} {prototypes final : List (Affine α)} {slots : List (List Piece)}
    (h : search.emit forms first region outputs prototypes = .ok (final, slots)) :
    slots.length = outputs.length ∧
      ∀ (place output : Nat) (slot : List Piece), outputs[place]? = some output → slots[place]? = some slot →
        search.Emitted forms first region prototypes final output slot := by
  obtain ⟨-, hslots⟩ := emit_spec outputs h
  refine ⟨hslots.length_eq.symm, fun place output slot houtput hslot => ?_⟩
  obtain ⟨hplace, rfl⟩ := List.getElem?_eq_some_iff.mp houtput
  obtain ⟨hplace', rfl⟩ := List.getElem?_eq_some_iff.mp hslot
  exact hslots.get hplace hplace'

/-- The kept pieces are those whose regions are found non-empty; the others are found empty. -/
theorem mem_of_keepFeasible {prototypes : List (Affine α)} {piece : Piece} (pieces : List Piece) :
    ∀ {kept}, search.keepFeasible prototypes pieces = .ok kept →
      (piece ∈ kept → piece ∈ pieces ∧ search.isFeasible prototypes piece.region = .ok true) ∧
        (piece ∈ pieces → piece ∈ kept ∨ search.isFeasible prototypes piece.region = .ok false) := by
  induction pieces with
  | nil =>
      intro kept h
      cases h
      exact ⟨fun hmem => absurd hmem List.not_mem_nil, fun hmem => absurd hmem List.not_mem_nil⟩
  | cons first pieces ih =>
      intro kept h
      obtain ⟨feasible, hfeasible, h⟩ := bind_eq_ok.mp h
      obtain ⟨others, hothers, h⟩ := bind_eq_ok.mp h
      cases h
      obtain ⟨hkept, hleft⟩ := ih hothers
      cases feasible with
      | true =>
          rw [if_pos rfl]
          constructor
          · intro hmem
            rcases List.mem_cons.mp hmem with rfl | hmem
            · exact ⟨List.mem_cons_self, hfeasible⟩
            · exact ⟨List.mem_cons_of_mem _ (hkept hmem).1, (hkept hmem).2⟩
          · intro hmem
            rcases List.mem_cons.mp hmem with rfl | hmem
            · exact Or.inl List.mem_cons_self
            · exact (hleft hmem).imp_left (List.mem_cons_of_mem _)
      | false =>
          rw [if_neg Bool.false_ne_true]
          constructor
          · exact fun hmem => ⟨List.mem_cons_of_mem _ (hkept hmem).1, (hkept hmem).2⟩
          · intro hmem
            rcases List.mem_cons.mp hmem with rfl | hmem
            · exact Or.inr hfeasible
            · exact hleft hmem

end Search

end ReluLogic
