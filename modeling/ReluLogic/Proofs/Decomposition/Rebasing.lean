import ReluLogic.Proofs.Decomposition.Merging

/-!
Searches moved behind a merged partition. A search over its own copy of base prototypes, once its boundaries past
the base are rebased, asks the oracle the same questions as a search that goes on from the merged partition. So
the two find the same, up to rebasing: putting a found partition behind the merged one gives what the search from
the merged one finds.
-/

namespace ReluLogic

/-- A gate whose prototype has moved with those past the base. -/
def Gate.rebase {α : Type} (base offset : Nat) (gate : Gate α) : Gate α :=
  { gate with index := (Boundary.rebase base offset ⟨gate.index, .geq⟩).index }

section Names

variable {α : Type} {base offset : Nat}

theorem Boundary.rebase_of_le {index : Nat} (h : base ≤ index) (sign : Sign) :
    Boundary.rebase base offset ⟨index, sign⟩ = ⟨index + offset, sign⟩ := by
  rw [rebase, if_pos h]

theorem Boundary.rebase_of_lt {boundary : Boundary} (h : boundary.index < base) :
    boundary.rebase base offset = boundary := by
  rw [rebase, if_neg (not_le.mpr h)]

@[simp] theorem Gate.boundary_rebase (gate : Gate α) (sign : Sign) :
    (gate.rebase base offset).boundary sign = (gate.boundary sign).rebase base offset := by
  unfold rebase boundary Boundary.rebase
  split_ifs <;> rfl

@[simp] theorem Gate.position_rebase (gate : Gate α) : (gate.rebase base offset).position = gate.position :=
  rfl

@[simp] theorem Gate.output_rebase [Scalar α] (gate : Gate α) (sign : Sign) :
    (gate.rebase base offset).output sign = gate.output sign := by
  cases sign <;> rfl

/-- Within the base nothing moves. -/
theorem Refers.map_rebase {prototypes : List (Affine α)} {region : List Boundary} (h : Refers prototypes region) :
    region.map (.rebase prototypes.length offset) = region :=
  (List.map_congr_left fun boundary hmem => Boundary.rebase_of_lt (h boundary hmem)).trans (List.map_id _)

theorem Gate.map_rebase {prototypes : List (Affine α)} {gates : List (Gate α)}
    (h : ∀ gate ∈ gates, gate.index < prototypes.length) :
    gates.map (.rebase prototypes.length offset) = gates := by
  refine (List.map_congr_left fun gate hmem => ?_).trans (List.map_id _)
  rw [rebase, Boundary.rebase_of_lt (h gate hmem)]
  rfl

end Names

theorem appendSlots_assoc (slots more others : List (List Piece)) (h : slots.length = more.length) :
    appendSlots (appendSlots slots more) others = appendSlots slots (appendSlots more others) := by
  induction slots generalizing more others with
  | nil => rfl
  | cons held slots ih =>
      cases more with
      | nil => cases h
      | cons pieces more =>
          cases others with
          | nil => rfl
          | cons last others =>
              simp only [appendSlots, List.append_assoc, ih more others (Nat.succ.inj h)]

theorem map_appendSlots (f : Piece → Piece) (slots more : List (List Piece)) :
    (appendSlots slots more).map (·.map f) = appendSlots (slots.map (·.map f)) (more.map (·.map f)) := by
  induction slots generalizing more with
  | nil => rfl
  | cons held slots ih =>
      cases more with
      | nil => rfl
      | cons pieces more => simp only [appendSlots, List.map_cons, List.map_append, ih]

/-- Putting an empty partition behind changes nothing. -/
theorem Partition.absorb_start {α : Type} {base : List (Affine α)} {merged : Partition α} {slots : Nat}
    (h : merged.pieces.length = slots) : merged.absorb base.length (.start base slots) = merged := by
  have hslots : ∀ held : List (List Piece), appendSlots held (List.replicate held.length []) = held := by
    intro held
    induction held with
    | nil => rfl
    | cons pieces held ih => rw [List.length_cons, List.replicate_succ, appendSlots, ih, List.append_nil]
  subst h
  unfold absorb start
  simp only [List.drop_length, List.append_nil, List.map_replicate, List.map_nil, hslots]

/-- Prototypes past a base, put behind those of a merged partition. -/
def Partition.behind {α : Type} (merged : Partition α) (base : Nat) (known : List (Affine α)) :
    List (Affine α) :=
  merged.prototypes ++ known.drop base

section Behind

variable {α : Type} {base known : List (Affine α)} {merged : Partition α} {offset : Nat}

theorem Partition.absorb_eq (hoffset : merged.prototypes.length = base.length + offset) (next : Partition α) :
    merged.absorb base.length next = ⟨merged.behind base.length next.prototypes,
      appendSlots merged.pieces (next.pieces.map (·.map (.rebase base.length offset)))⟩ := by
  obtain rfl : offset = merged.prototypes.length - base.length := by omega
  rfl

theorem Partition.length_behind (hoffset : merged.prototypes.length = base.length + offset)
    (hknown : base <+: known) : (merged.behind base.length known).length = known.length + offset := by
  have := hknown.length_le
  rw [behind, List.length_append, List.length_drop]
  omega

theorem Partition.behind_append (hknown : base <+: known) (forms : List (Affine α)) :
    merged.behind base.length (known ++ forms) = merged.behind base.length known ++ forms := by
  rw [behind, behind, List.drop_append_of_le_length hknown.length_le, List.append_assoc]

/-- A rebased region stands for the same constraints. -/
theorem regionConstraints_behind (hmerged : base <+: merged.prototypes)
    (hoffset : merged.prototypes.length = base.length + offset) (hknown : base <+: known)
    {region : List Boundary} {constraints : List (Constraint α)}
    (h : regionConstraints known region = .ok constraints) :
    regionConstraints (merged.behind base.length known) (region.map (.rebase base.length offset)) =
      .ok constraints := by
  obtain rfl : offset = merged.prototypes.length - base.length := by omega
  refine mapM_eq_ok.mpr (List.forall₂_map_left_iff.mpr ((mapM_eq_ok.mp h).imp ?_))
  intro boundary constraint hresolve
  obtain ⟨hform, hsign⟩ := Boundary.resolve_eq_ok.mp hresolve
  have hsame := getElem?_rebase hmerged (show base <+: (⟨known, []⟩ : Partition α).prototypes from hknown) boundary
  exact Boundary.resolve_eq_ok.mpr ⟨hsame.trans hform, by rw [Boundary.sign_rebase, hsign]⟩

end Behind

namespace Search

variable {α : Type} [Scalar α] {search : Search α} {base known forms : List (Affine α)} {merged : Partition α}
  {offset first : Nat} {region : List Boundary}

/-- The pieces that an output cuts a rebased region into are the rebased ones. -/
theorem candidates_rebase {base raw upper : Nat} (hraw : base ≤ raw) (hupper : base ≤ upper) (dim : Nat)
    (form : Affine α) :
    candidates dim form (region.map (.rebase base offset)) (raw + offset) (upper + offset) =
      (candidates dim form region raw upper).map (.rebase base offset) := by
  simp only [candidates, Piece.rebase, Piece.zero, Piece.one, Boundary.geq, Boundary.leq, List.map_cons,
    List.map_nil, List.map_append, Boundary.rebase_of_le hraw, Boundary.rebase_of_le hupper]

section Questions

variable (hmerged : base <+: merged.prototypes) (hoffset : merged.prototypes.length = base.length + offset)
include hmerged hoffset

theorem isFeasible_behind (hknown : base <+: known) {found : Bool}
    (h : search.isFeasible known region = .ok found) :
    search.isFeasible (merged.behind base.length known) (region.map (.rebase base.length offset)) =
      .ok found := by
  obtain ⟨constraints, hconstraints, hfound⟩ := bind_eq_ok.mp h
  exact bind_eq_ok.mpr ⟨constraints, regionConstraints_behind hmerged hoffset hknown hconstraints, hfound⟩

theorem keepFeasible_behind (hknown : base <+: known) (pieces : List Piece) :
    ∀ {kept}, search.keepFeasible known pieces = .ok kept →
      search.keepFeasible (merged.behind base.length known) (pieces.map (.rebase base.length offset)) =
        .ok (kept.map (.rebase base.length offset)) := by
  induction pieces with
  | nil =>
      intro kept h
      cases h
      rfl
  | cons piece pieces ih =>
      intro kept h
      obtain ⟨found, hfound, h⟩ := bind_eq_ok.mp h
      obtain ⟨others, hothers, h⟩ := bind_eq_ok.mp h
      cases h
      refine bind_eq_ok.mpr ⟨found, isFeasible_behind hmerged hoffset hknown hfound, ?_⟩
      refine bind_eq_ok.mpr ⟨_, ih hothers, ?_⟩
      cases found <;> rfl

theorem emit_behind (hfirst : base.length ≤ first) (outputs : List Nat) :
    ∀ {known final slots}, base <+: known →
      search.emit forms first region outputs known = .ok (final, slots) →
        search.emit forms (first + offset) (region.map (.rebase base.length offset)) outputs
            (merged.behind base.length known) =
          .ok (merged.behind base.length final, slots.map (·.map (.rebase base.length offset))) := by
  induction outputs with
  | nil =>
      intro known final slots _ h
      cases h
      rfl
  | cons output outputs ih =>
      intro known final slots hknown h
      obtain ⟨kept, hkept, h⟩ := bind_eq_ok.mp h
      obtain ⟨⟨last, others⟩, hothers, h⟩ := bind_eq_ok.mp h
      cases h
      have hextended := hknown.trans (List.prefix_append known [(forms.getD output (.zero search.dim)).minusOne])
      have hkept' := keepFeasible_behind hmerged hoffset hextended _ hkept
      have hothers' := ih hextended hothers
      rw [Partition.behind_append hknown] at hkept' hothers'
      rw [← candidates_rebase (le_add_right hfirst) hknown.length_le,
        ← Partition.length_behind hoffset hknown, Nat.add_right_comm] at hkept'
      exact bind_eq_ok.mpr ⟨_, hkept', bind_eq_ok.mpr ⟨_, hothers', rfl⟩⟩

theorem classify_behind (hfirst : base.length ≤ first) (hknown : base <+: known) {gates : List (Gate α)}
    (h : search.classify known forms region first = .ok gates) :
    search.classify (merged.behind base.length known) forms (region.map (.rebase base.length offset))
        (first + offset) = .ok (gates.map (.rebase base.length offset)) := by
  obtain ⟨constraints, hconstraints, h⟩ := bind_eq_ok.mp h
  obtain ⟨positions, hpositions, h⟩ := bind_eq_ok.mp h
  cases h
  refine bind_eq_ok.mpr ⟨constraints, regionConstraints_behind hmerged hoffset hknown hconstraints, ?_⟩
  refine bind_eq_ok.mpr ⟨positions, hpositions, congrArg Except.ok ?_⟩
  refine List.ext_getElem? fun place => ?_
  simp only [List.getElem?_map, List.getElem?_mapIdx, Option.map_map]
  congr 1
  funext ⟨form, position⟩
  show (⟨form, first + offset + place, position⟩ : Gate α) = _
  rw [Function.comp_apply, Gate.rebase, Boundary.rebase_of_le (le_add_right hfirst), Nat.add_right_comm]

end Questions

/-- One way of a cut gate, moved behind a merged partition with what exploring it gives. -/
theorem Half.behind {Explored Moved : List (Affine α) → List Boundary → Partition α → Partition α → Prop}
    {gate : Gate α} {values : List (Affine α)} {sign : Sign} {state result : Partition α}
    (hmerged : base <+: merged.prototypes) (hoffset : merged.prototypes.length = base.length + offset)
    (hstate : base <+: state.prototypes)
    (hmoved : ∀ {values region}, Explored values region state result →
      Moved values (region.map (.rebase base.length offset)) (merged.absorb base.length state)
        (merged.absorb base.length result))
    (h : search.Half Explored gate values region sign state result) :
    search.Half Moved (gate.rebase base.length offset) values (region.map (.rebase base.length offset)) sign
      (merged.absorb base.length state) (merged.absorb base.length result) := by
  unfold Half
  rw [Gate.boundary_rebase, Gate.output_rebase, ← List.map_singleton, ← List.map_append]
  rcases h with ⟨hfound, hexplored⟩ | ⟨hempty, rfl⟩
  · exact Or.inl ⟨isFeasible_behind hmerged hoffset hstate hfound, hmoved hexplored⟩
  · exact Or.inr ⟨isFeasible_behind hmerged hoffset hstate hempty, rfl⟩

/-- A search over its own copy of the base, continued from a merged partition. -/
theorem shapedRules_behind (hmerged : merged.Over search.dim search.outputs.length base)
    (hoffset : merged.prototypes.length = base.length + offset) :
    search.ShapedRules
      (fun layers forms region state result => base <+: state.prototypes →
        search.descend layers forms (region.map (.rebase base.length offset)) (merged.absorb base.length state) =
          .ok (merged.absorb base.length result))
      (fun layer rest gates values region state result => base <+: state.prototypes →
        search.branch (search.below layer rest) (gates.map (.rebase base.length offset)) values
            (region.map (.rebase base.length offset)) (merged.absorb base.length state) =
          .ok (merged.absorb base.length result)) where
  leaf {forms region state final slots} hready hemit hstate := by
    have hgrown := hstate.trans (List.prefix_append _ forms)
    have hemit' := emit_behind hmerged.starts hoffset hstate.length_le _ hgrown hemit
    rw [Partition.behind_append hstate, ← Partition.length_behind hoffset hstate] at hemit'
    simp only [Partition.absorb_eq hoffset]
    refine bind_eq_ok.mpr ⟨_, hemit', congrArg Except.ok ?_⟩
    rw [map_appendSlots, appendSlots_assoc]
    rw [List.length_map, hmerged.wellFormed.length_eq, hready.wellFormed.length_eq]
  layer {layer rest forms region state gates result} hready hgates hresolved hstate := by
    have hgrown := hstate.trans (List.prefix_append _ forms)
    have hgates' := classify_behind hmerged.starts hoffset hstate.length_le hgrown hgates
    have hresolved' := hresolved hgrown
    rw [Partition.behind_append hstate, ← Partition.length_behind hoffset hstate] at hgates'
    rw [Partition.absorb_eq hoffset ⟨_, _⟩, Partition.behind_append hstate] at hresolved'
    rw [Partition.absorb_eq hoffset state]
    exact bind_eq_ok.mpr ⟨_, hgates', hresolved'⟩
  done _ hexplored := hexplored
  fixed {layer rest gate gates values region state result sign} _ hsign hresolved hstate := by
    rw [List.map_cons, branch_of_sign? (by rw [Gate.position_rebase, hsign]), Gate.output_rebase]
    exact hresolved hstate
  cut {layer rest gate gates values region state middle result} _ hcut hmiddle _ _ hgeq hleq hstate := by
    rw [List.map_cons]
    exact (branch_of_cutting (gate.position_rebase.trans hcut)).mpr
      ⟨_, hgeq.behind hmerged.starts hoffset hstate (fun hexplored => hexplored hstate),
        hleq.behind hmerged.starts hoffset (hstate.trans hmiddle.prototypes)
          (fun hexplored => hexplored (hstate.trans hmiddle.prototypes))⟩

/-- A search among gates on base prototypes does the same behind a merged partition: what it finds from the base
alone is put behind. -/
theorem Pending.branch_behind {layer : Layer α} {rest : List (Layer α)} {gates : List (Gate α)}
    {values : List (Affine α)} {result : Partition α}
    (hpending : search.Pending layer rest gates values region (.start base search.outputs.length))
    (hmerged : merged.Over search.dim search.outputs.length base)
    (h : search.branch (search.below layer rest) gates values region (.start base search.outputs.length) =
      .ok result) :
    search.branch (search.below layer rest) gates values region merged =
      .ok (merged.absorb base.length result) := by
  obtain ⟨offset, hoffset⟩ := Nat.exists_eq_add_of_le hmerged.starts.length_le
  have hmoved := ((shapedRules_behind hmerged hoffset).branch hpending h).2 List.prefix_rfl
  have hgates : ∀ gate ∈ gates, gate.index < base.length := fun gate hgate =>
    (List.getElem?_eq_some_iff.mp (hpending.known gate hgate).2).1
  have hregion : Refers base region := hpending.refers
  rwa [Gate.map_rebase hgates, hregion.map_rebase,
    Partition.absorb_start hmerged.wellFormed.length_eq] at hmoved

end Search

end ReluLogic
