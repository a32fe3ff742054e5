import ReluLogic.Proofs.Decomposition.Merging

/-!
What merging keeps. Partitions of different sizes that start with the same base prototypes are merged one behind the
other: the prototypes past the base and the pieces of every slot stand in the order of the partitions, and each boundary
finds among the merged prototypes the form that it had in its own list. Nothing is asked of the numbers in the forms.
-/

namespace ReluLogic

variable {α : Type} {base own merged : List (Affine α)}

/-- A boundary in another list of prototypes. References into the base stay, all others find the same form. -/
structure Boundary.Moved (base : Nat) (own merged : List (Affine α)) (boundary moved : Boundary) : Prop where
  sign_eq : moved.sign = boundary.sign
  index_eq : boundary.index < base → moved.index = boundary.index
  resolves : ∃ form, own[boundary.index]? = some form ∧ merged[moved.index]? = some form

/-- A piece with the same coefficients, whose region is asked of another list of prototypes. -/
structure Piece.Moved (base : Nat) (own merged : List (Affine α)) (piece moved : Piece) : Prop where
  coefficients_eq : moved.coefficients = piece.coefficients
  region : List.Forall₂ (Boundary.Moved base own merged) piece.region moved.region

section Meaning

variable [Scalar α] {size : Nat} {point : List α} {tolerance : α}

theorem Boundary.Moved.admits?_eq {boundary moved : Boundary} (h : boundary.Moved size own merged moved) :
    moved.admits? merged point tolerance = boundary.admits? own point tolerance := by
  obtain ⟨form, hown, hmerged⟩ := h.resolves
  unfold admits?
  rw [hown, hmerged, h.sign_eq]

theorem Boundary.allAdmit?_eq_of_moved {region others : List Boundary}
    (h : List.Forall₂ (Boundary.Moved size own merged) region others) :
    Boundary.allAdmit? merged point tolerance others = Boundary.allAdmit? own point tolerance region := by
  induction h with
  | nil => rfl
  | cons hfirst _ ih => rw [allAdmit?, allAdmit?, hfirst.admits?_eq, ih]

/-- A moved piece has the region that it had. -/
theorem Piece.Moved.contains?_eq {piece moved : Piece} (h : piece.Moved size own merged moved) :
    moved.contains? merged point tolerance = piece.contains? own point tolerance :=
  Boundary.allAdmit?_eq_of_moved h.region

end Meaning

/-! ### One partition -/

/-- A partition that starts with base prototypes, refers to its own prototypes and has no more than `slots` lists of
pieces. -/
structure Partition.Joins (base : List (Affine α)) (slots : Nat) (partition : Partition α) : Prop where
  starts : base <+: partition.prototypes
  refers : ∀ slot ∈ partition.pieces, ∀ piece ∈ slot, Refers partition.prototypes piece.region
  length_le : partition.pieces.length ≤ slots

/-- A slot holds its pieces and behind them those of the other side, if there are any. -/
theorem getElem?_appendSlots_eq (slots : List (List Piece)) : ∀ (more : List (List Piece)) (place : Nat),
    (appendSlots slots more)[place]? = slots[place]?.map (· ++ more.getD place []) := by
  induction slots with
  | nil => exact fun _ _ => rfl
  | cons held slots ih =>
      intro more place
      cases more with
      | nil => simp only [appendSlots, List.getD_nil, List.append_nil, Option.map_id']
      | cons pieces more =>
          cases place with
          | zero => rfl
          | succ place =>
              rw [appendSlots, List.getElem?_cons_succ, List.getElem?_cons_succ, List.getD_cons_succ, ih]

/-- No piece is lost where the other side has no further slots. -/
theorem length_flatten_appendSlots (slots : List (List Piece)) : ∀ more : List (List Piece),
    more.length ≤ slots.length →
      (appendSlots slots more).flatten.length = slots.flatten.length + more.flatten.length := by
  induction slots with
  | nil =>
      intro more hlength
      rw [List.length_eq_zero_iff.mp (Nat.le_zero.mp hlength)]
      rfl
  | cons held slots ih =>
      intro more hlength
      cases more with
      | nil => rfl
      | cons pieces more =>
          simp only [appendSlots, List.flatten_cons, List.length_append, ih more (Nat.le_of_succ_le_succ hlength)]
          omega

namespace Partition

variable {slots place : Nat} {state next : Partition α}

def pieceCount (partition : Partition α) : Nat :=
  partition.pieces.flatten.length

theorem length_absorb (size : Nat) (state next : Partition α) :
    (state.absorb size next).pieces.length = state.pieces.length :=
  (appendSlots_extends _ _).length_eq.symm

theorem pieceCount_start (base : List (Affine α)) (slots : Nat) : (start base slots).pieceCount = 0 := by
  simp [pieceCount, start]

theorem Joins.pieceCount_absorb (h : next.Joins base slots) (hslots : state.pieces.length = slots) :
    (state.absorb base.length next).pieceCount = state.pieceCount + next.pieceCount := by
  unfold pieceCount absorb
  rw [length_flatten_appendSlots, ← List.map_flatten, List.length_map]
  rw [List.length_map, hslots]
  exact h.length_le

/-- What is put behind the pieces of a slot when a partition is absorbed. -/
def group (base : List (Affine α)) (state next : Partition α) (place : Nat) : List Piece :=
  (next.pieces.getD place []).map (.rebase base.length (state.prototypes.length - base.length))

theorem getElem?_absorb (base : List (Affine α)) (state next : Partition α) (place : Nat) :
    (state.absorb base.length next).pieces[place]? = state.pieces[place]?.map (· ++ group base state next place) := by
  rw [absorb, getElem?_appendSlots_eq, group, List.getD_eq_getElem?_getD, List.getD_eq_getElem?_getD,
    List.getElem?_map]
  cases next.pieces[place]? <;> rfl

/-- The pieces that are put behind stand for what they stood for, also when more prototypes follow. -/
theorem Joins.moved (h : next.Joins base slots) (hstate : base <+: state.prototypes)
    (hmerged : (state.absorb base.length next).prototypes <+: merged) (place : Nat) :
    List.Forall₂ (Piece.Moved base.length next.prototypes merged) (next.pieces.getD place [])
      (group base state next place) := by
  refine List.forall₂_map_right_iff.mpr (List.forall₂_same.mpr fun piece hpiece => ⟨rfl, ?_⟩)
  refine List.forall₂_map_right_iff.mpr (List.forall₂_same.mpr fun boundary hboundary => ?_)
  have hrefers : Refers next.prototypes piece.region := by
    rcases hslot : next.pieces[place]? with _ | slot
    · rw [List.getD_eq_getElem?_getD, hslot] at hpiece
      exact absurd hpiece List.not_mem_nil
    · rw [List.getD_eq_getElem?_getD, hslot] at hpiece
      exact h.refers slot (List.mem_of_getElem? hslot) piece hpiece
  have hform := List.getElem?_eq_getElem (hrefers boundary hboundary)
  have hmoved := getElem?_rebase hstate h.starts boundary
  have hwithin := (List.getElem?_eq_some_iff.mp (hmoved.trans hform)).1
  refine ⟨Boundary.sign_rebase _ _ _, fun hlt => ?_, _, hform, ?_⟩
  · rw [Boundary.rebase, if_neg (not_le.mpr hlt)]
  · rw [getElem?_of_extends hmerged hwithin]
    exact hmoved.trans hform

/-! ### All partitions -/

/-- Partitions are absorbed in order, each with its own group of pieces in every slot. -/
theorem foldl_absorb_gathers (partitions : List (Partition α)) :
    ∀ {state : Partition α}, base <+: state.prototypes → (∀ part ∈ partitions, part.Joins base slots) →
      (partitions.foldl (absorb base.length) state).prototypes =
        state.prototypes ++ partitions.flatMap (·.prototypes.drop base.length) ∧
      (partitions.foldl (absorb base.length) state).pieces.length = state.pieces.length ∧
      ∀ place, ∃ groups : List (List Piece),
        (partitions.foldl (absorb base.length) state).pieces[place]? =
          state.pieces[place]?.map (· ++ groups.flatten) ∧
        List.Forall₂ (fun part group => List.Forall₂ (Piece.Moved base.length part.prototypes
          (partitions.foldl (absorb base.length) state).prototypes) (part.pieces.getD place []) group)
          partitions groups := by
  induction partitions with
  | nil =>
      intro state _ _
      refine ⟨(List.append_nil _).symm, rfl, fun place => ⟨[], ?_, .nil⟩⟩
      simp only [List.foldl_nil, List.flatten_nil, List.append_nil, Option.map_id']
  | cons next partitions ih =>
      intro state hstate hparts
      obtain ⟨hnext, hrest⟩ := List.forall_mem_cons.mp hparts
      have hgrown : base <+: (state.absorb base.length next).prototypes := hstate.trans (List.prefix_append _ _)
      obtain ⟨hprototypes, hlength, hpieces⟩ := ih hgrown hrest
      rw [List.foldl_cons]
      refine ⟨?_, hlength.trans (length_absorb _ _ _), fun place => ?_⟩
      · rw [hprototypes, List.flatMap_cons, ← List.append_assoc]
        rfl
      · obtain ⟨groups, hplace, hgroups⟩ := hpieces place
        refine ⟨group base state next place :: groups, ?_, .cons (hnext.moved hstate ?_ place) hgroups⟩
        · rw [hplace, getElem?_absorb, Option.map_map, List.flatten_cons]
          simp only [Function.comp_def, List.append_assoc]
        · rw [hprototypes]
          exact List.prefix_append _ _

theorem pieceCount_foldl_absorb (partitions : List (Partition α)) :
    ∀ {state : Partition α}, state.pieces.length = slots → (∀ part ∈ partitions, part.Joins base slots) →
      (partitions.foldl (absorb base.length) state).pieceCount =
        state.pieceCount + (partitions.map pieceCount).sum := by
  induction partitions with
  | nil => exact fun _ _ => rfl
  | cons next partitions ih =>
      intro state hslots hparts
      obtain ⟨hnext, hrest⟩ := List.forall_mem_cons.mp hparts
      rw [List.foldl_cons, ih ((length_absorb _ _ _).trans hslots) hrest, hnext.pieceCount_absorb hslots,
        List.map_cons, List.sum_cons, Nat.add_assoc]

end Partition

/-- Merging keeps all pieces and what their regions mean. Over partitions that start with the same base, refer to their
own prototypes and have no more lists of pieces than there are outputs, the merged prototypes are the base and behind it
what each partition adds, in order. The pieces of a slot are those of the partitions in order and none is lost; each has
its coefficients and signs, and every boundary finds in the merged list the form that it found in the list of its
partition, so over any number type a point is judged to lie in the region of a piece just as before. -/
theorem mergePartitions_gathers {partitions : List (Partition α)} {outputs : List Nat}
    (hparts : ∀ part ∈ partitions, part.Joins base outputs.length) :
    (mergePartitions base partitions outputs).outputs = outputs ∧
    (mergePartitions base partitions outputs).prototypes =
      base ++ partitions.flatMap (·.prototypes.drop base.length) ∧
    (mergePartitions base partitions outputs).pieces.length = outputs.length ∧
    (mergePartitions base partitions outputs).pieceCount = (partitions.map Partition.pieceCount).sum ∧
    ∀ slot < outputs.length, ∃ groups : List (List Piece),
      (mergePartitions base partitions outputs).pieces[slot]? = some groups.flatten ∧
      List.Forall₂ (fun part group => List.Forall₂ (fun piece moved =>
        piece.Moved base.length part.prototypes (mergePartitions base partitions outputs).prototypes moved ∧
        ∀ [Scalar α] (point : List α) (tolerance : α),
          moved.contains? (mergePartitions base partitions outputs).prototypes point tolerance =
            piece.contains? part.prototypes point tolerance) (part.pieces.getD slot []) group) partitions groups := by
  have hstart : base <+: (Partition.start base outputs.length).prototypes := List.prefix_rfl
  have hslots : (Partition.start base outputs.length).pieces.length = outputs.length := List.length_replicate
  obtain ⟨hprototypes, hlength, hpieces⟩ := Partition.foldl_absorb_gathers partitions hstart hparts
  refine ⟨rfl, hprototypes, hlength.trans hslots, ?_, fun slot hslot => ?_⟩
  · have hcount := Partition.pieceCount_foldl_absorb partitions hslots hparts
    rw [Partition.pieceCount_start, Nat.zero_add] at hcount
    exact hcount
  · obtain ⟨groups, hplace, hgroups⟩ := hpieces slot
    rw [Partition.start, List.getElem?_replicate_of_lt hslot] at hplace
    refine ⟨groups, hplace, hgroups.imp fun part group hgroup => hgroup.imp fun piece moved hmoved => ?_⟩
    exact ⟨hmoved, fun point tolerance => hmoved.contains?_eq⟩

/-- Partitions over one base prototype that add two, none and one of their own. -/
def unevenParts : List (Partition ℚ) :=
  [⟨[⟨[0, 1]⟩, ⟨[-1, 1]⟩, ⟨[-1, 2]⟩], [[⟨[.zero, .one], [.geq 0, .leq 2]⟩], [⟨[.one, .zero], [.leq 1]⟩]]⟩,
    ⟨[⟨[0, 1]⟩], [[⟨[.zero, .zero], [.leq 0]⟩]]⟩,
    ⟨[⟨[0, 1]⟩, ⟨[-1, 3]⟩], [[], [⟨[.zero, .one], [.geq 0, .leq 1]⟩]]⟩]

theorem mergePartitions_gathers_unevenParts :
    (mergePartitions [⟨[0, 1]⟩] unevenParts [0, 1]).prototypes =
      [⟨[0, 1]⟩, ⟨[-1, 1]⟩, ⟨[-1, 2]⟩, ⟨[-1, 3]⟩] ∧
    ∃ groups : List (List Piece),
      (mergePartitions [⟨[0, 1]⟩] unevenParts [0, 1]).pieces[1]? = some groups.flatten ∧ groups.length = 3 := by
  have hparts : ∀ part ∈ unevenParts, part.Joins [⟨[0, 1]⟩] [0, 1].length := by
    intro part hpart
    simp only [unevenParts, List.mem_cons, List.not_mem_nil, or_false] at hpart
    rcases hpart with rfl | rfl | rfl <;>
      exact ⟨by decide, by simp [Refers, Boundary.geq, Boundary.leq], by decide⟩
  obtain ⟨-, hprototypes, -, -, hpieces⟩ := mergePartitions_gathers hparts
  obtain ⟨groups, hslot, hgroups⟩ := hpieces 1 (by decide)
  exact ⟨hprototypes, groups, hslot, hgroups.length_eq.symm⟩

end ReluLogic
