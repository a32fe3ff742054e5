import ReluLogic.Proofs.Lattice.Connection

/-!
Pieces over one input. The regions are intervals, so of two regions one lies ahead of the other unless they overlap.
Among the pieces that rise from the end of the one to the start of the other the steepest is at most the first piece
behind that end and at least the second ahead of that start.
-/

namespace ReluLogic

/-- How much a piece over one input grows from one end of the unit interval to the other. -/
def Piece.slope (piece : Piece) : ℚ :=
  piece.evaluate [1] - piece.evaluate [0]

theorem Piece.evaluate_singleton (piece : Piece) (start input : ℚ) :
    (piece.evaluate [input] : ℚ) = piece.evaluate [start] + piece.slope * (input - start) := by
  have hvalue : ∀ input : ℚ, (piece.evaluate [input] : ℚ) = piece.evaluate [0] + piece.slope * input := by
    intro input
    have hsegment : segment [0] [1] input = [input] := by
      rw [segment, List.zipWith_cons_cons, List.zipWith_nil_left, sub_zero, one_mul, zero_add]
    have hlength : ([0] : List ℚ).length = ([1] : List ℚ).length := rfl
    rw [← hsegment, evaluate, Affine.evaluate_segment _ hlength]
    rfl
  rw [hvalue input, hvalue start]
  ring

namespace PieceFamily

variable {family : PieceFamily ℚ} {value : List ℚ → ℚ} {region : List Boundary} {piece other : Piece}
  {first last input : ℚ}

/-- The inputs that a region holds. -/
def inputs (family : PieceFamily ℚ) (region : List Boundary) : Set ℚ :=
  {input | [input] ∈ unitBox 1 ∧ Inside family.prototypes region [input]}

theorem below_one_iff : family.Below 1 region piece other ↔
    ∀ input ∈ family.inputs region, (piece.evaluate [input] : ℚ) ≤ other.evaluate [input] := by
  constructor
  · exact fun h input hinput => h [input] hinput.1 hinput.2
  · intro h point hbox hinside
    obtain ⟨input, rfl⟩ := List.length_eq_one_iff.mp hbox.1
    exact h input ⟨hbox, hinside⟩

/-- The inputs of a region are an interval. -/
theorem mem_inputs_of_le (hshape : Shaped 1 family.prototypes) (hfirst : first ∈ family.inputs region)
    (hlast : last ∈ family.inputs region) (hle : first ≤ input) (hle' : input ≤ last) :
    input ∈ family.inputs region := by
  rcases (hle.trans hle').eq_or_lt with heq | hlt
  · rwa [le_antisymm (hle'.trans_eq heq.symm) hle]
  · have hpos : 0 < last - first := sub_pos.mpr hlt
    have hzero : 0 ≤ (input - first) / (last - first) := div_nonneg (sub_nonneg.mpr hle) hpos.le
    have hone : (input - first) / (last - first) ≤ 1 := (div_le_one hpos).mpr (sub_le_sub_right hle' first)
    have hsegment : segment [first] [last] ((input - first) / (last - first)) = [input] := by
      rw [segment, List.zipWith_cons_cons, List.zipWith_nil_left, mul_div_cancel₀ _ hpos.ne', add_sub_cancel]
    rw [inputs, Set.mem_ofPred_eq, ← hsegment]
    exact ⟨segment_mem hfirst.1 hlast.1 hzero hone, inside_segment hshape rfl hfirst.2 hlast.2 hzero hone⟩

/-- A region with an input holds the one that is furthest in a direction. -/
theorem exists_furthest (hshape : Shaped 1 family.prototypes) (hinput : (family.inputs region).Nonempty)
    (direction : ℚ) : ∃ best ∈ family.inputs region, ∀ input ∈ family.inputs region,
      direction * input ≤ direction * best := by
  obtain ⟨start, hstart⟩ := hinput
  have hrefers : Refers family.prototypes region := fun boundary hboundary => by
    obtain ⟨form, hform, -⟩ := (inside_iff hshape).mp hstart.2 boundary hboundary
    exact (List.getElem?_eq_some_iff.mp hform).1
  obtain ⟨constraints, hconstraints⟩ := hrefers.exists_constraints
  have hfeasible : ∀ {input : ℚ}, [input] ∈ feasible 1 constraints ↔ input ∈ family.inputs region :=
    mem_feasible_iff hshape hconstraints
  -- The simplex method finds the greatest multiple, so there is one.
  obtain ⟨_, -, ⟨best, hbest, rfl⟩, hgreatest⟩ := (Simplex.exhaustive_exact 1).optimal ⟨[0, direction]⟩ constraints rfl
    (hshape.uniform hconstraints) ⟨[start], hfeasible.mpr hstart⟩
  obtain ⟨best, rfl⟩ := Interval.exists_input hbest
  refine ⟨best, hfeasible.mp hbest, fun input hinput => ?_⟩
  have hle := hgreatest ⟨[input], hfeasible.mpr hinput, rfl⟩
  rwa [Affine.evaluate_pair, Affine.evaluate_pair, zero_add, zero_add] at hle

theorem exists_ends (hshape : Shaped 1 family.prototypes) (hinput : (family.inputs region).Nonempty) :
    ∃ first ∈ family.inputs region, ∃ last ∈ family.inputs region, first ≤ last ∧
      ∀ input ∈ family.inputs region, first ≤ input ∧ input ≤ last := by
  obtain ⟨first, hfirst, hleast⟩ := exists_furthest hshape hinput (-1)
  obtain ⟨last, hlast, hgreatest⟩ := exists_furthest hshape hinput 1
  have hbetween : ∀ input ∈ family.inputs region, first ≤ input ∧ input ≤ last := by
    intro input hinput
    have hlow := hleast input hinput
    have hhigh := hgreatest input hinput
    constructor <;> linarith
  exact ⟨first, hfirst, last, hlast, (hbetween first hfirst).2, hbetween⟩

/-- A piece that is at most another at an input and grows at least as fast in a direction is so behind that input. -/
theorem evaluate_le_of_slope {near far direction : ℚ} (hdirection : direction * direction = 1)
    (hnear : (piece.evaluate [near] : ℚ) ≤ other.evaluate [near])
    (hslope : direction * other.slope ≤ direction * piece.slope) (hbehind : 0 ≤ direction * (near - far)) :
    (piece.evaluate [far] : ℚ) ≤ other.evaluate [far] := by
  have hgrowth : (piece.slope - other.slope) * (near - far) =
      (direction * piece.slope - direction * other.slope) * (direction * (near - far)) := by
    linear_combination -(piece.slope - other.slope) * (near - far) * hdirection
  have hnonneg := hgrowth ▸ mul_nonneg (sub_nonneg.mpr hslope) hbehind
  rw [piece.evaluate_singleton near, other.evaluate_singleton near]
  linarith

/-- Pieces of which one lies ahead of the other are connected by the steepest of the pieces that rise on the way. -/
theorem Patches.exists_connects_of_ahead (h : family.Patches 1 value) (htolerance : 0 ≤ family.tolerance)
    (hpiece : piece ∈ family.pieces) (hother : other ∈ family.pieces) {direction near far : ℚ}
    (hdirection : direction * direction = 1) (hnear : near ∈ family.inputs piece.region)
    (hfar : far ∈ family.inputs other.region) (hway : 0 ≤ direction * (far - near))
    (hbehind : ∀ input ∈ family.inputs piece.region, 0 ≤ direction * (near - input))
    (hahead : ∀ input ∈ family.inputs other.region, 0 ≤ direction * (input - far)) :
    ∃ between ∈ family.pieces, family.Connects 1 piece other between := by
  classical
  set rising := family.pieces.toFinset.filter fun between =>
    (between.evaluate [near] : ℚ) ≤ piece.evaluate [near] ∧ (other.evaluate [far] : ℚ) ≤ between.evaluate [far]
  have hmem : ∀ between, between ∈ rising ↔ between ∈ family.pieces ∧
      (between.evaluate [near] : ℚ) ≤ piece.evaluate [near] ∧ (other.evaluate [far] : ℚ) ≤ between.evaluate [far] := by
    intro between
    rw [Finset.mem_filter, List.mem_toFinset]
  obtain ⟨start, hstart, hlow, hhigh⟩ := h.exists_rising hnear.1 hfar.1
  rw [← h.agrees piece hpiece _ hnear.1 hnear.2] at hlow
  rw [← h.agrees other hother _ hfar.1 hfar.2] at hhigh
  obtain ⟨steepest, hsteepest, hgreatest⟩ := rising.exists_max_image (fun between => direction * between.slope)
    ⟨start, (hmem start).mpr ⟨hstart, hlow, hhigh⟩⟩
  obtain ⟨hsteepest, hlow, hhigh⟩ := (hmem steepest).mp hsteepest
  -- The two pieces are not steeper either, since they would rise themselves.
  have hback : 0 ≤ -direction * (near - far) := by linarith
  have hdirection' : -direction * -direction = 1 := by rw [neg_mul_neg, hdirection]
  have hpieceSlope : direction * piece.slope ≤ direction * steepest.slope := by
    by_contra hsteeper
    have hrises := evaluate_le_of_slope hdirection' hlow (by linarith) hback
    exact hsteeper (hgreatest piece ((hmem piece).mpr ⟨hpiece, le_rfl, hhigh.trans hrises⟩))
  have hotherSlope : direction * other.slope ≤ direction * steepest.slope := by
    by_contra hsteeper
    have hrises := evaluate_le_of_slope hdirection hhigh (not_le.mp hsteeper).le hway
    exact hsteeper (hgreatest other ((hmem other).mpr ⟨hother, hrises.trans hlow, le_rfl⟩))
  refine ⟨steepest, hsteepest, Below.connects htolerance (below_one_iff.mpr fun input hinput => ?_)
    (below_one_iff.mpr fun input hinput => ?_)⟩
  · exact evaluate_le_of_slope hdirection hlow hpieceSlope (hbehind input hinput)
  · have hinside := hahead input hinput
    exact evaluate_le_of_slope hdirection' hhigh (by linarith) (by linarith)

/-- Pieces that have the same value at two inputs are equal everywhere. -/
theorem evaluate_eq_of_two (hlt : first < last) (hfirst : (piece.evaluate [first] : ℚ) = other.evaluate [first])
    (hlast : (piece.evaluate [last] : ℚ) = other.evaluate [last]) (input : ℚ) :
    (piece.evaluate [input] : ℚ) = other.evaluate [input] := by
  rw [piece.evaluate_singleton first, other.evaluate_singleton first, hfirst, add_right_inj] at hlast
  rw [piece.evaluate_singleton first, other.evaluate_singleton first, hfirst,
    mul_right_cancel₀ (sub_ne_zero.mpr hlt.ne') hlast]

/-- Pieces over one input are connected. -/
theorem Patches.exists_connects_of_line (h : family.Patches 1 value) (htolerance : 0 ≤ family.tolerance)
    (hpiece : piece ∈ family.pieces) (hother : other ∈ family.pieces) :
    ∃ between ∈ family.pieces, family.Connects 1 piece other between := by
  have hshape := h.wellFormed.shaped
  by_cases hempty : (¬ ∃ point, point ∈ unitBox 1 ∧ Inside family.prototypes piece.region point) ∨
      ¬ ∃ point, point ∈ unitBox 1 ∧ Inside family.prototypes other.region point
  · exact exists_connects_of_empty htolerance hpiece hother hempty
  rw [not_or, not_not, not_not] at hempty
  have hinputs : ∀ {region}, (∃ point, point ∈ unitBox 1 ∧ Inside family.prototypes region point) →
      (family.inputs region).Nonempty := by
    rintro region ⟨point, hpoint⟩
    obtain ⟨input, rfl⟩ := List.length_eq_one_iff.mp hpoint.1.1
    exact ⟨input, hpoint⟩
  obtain ⟨first, hfirst, last, hlast, hle, hends⟩ := exists_ends hshape (hinputs hempty.1)
  obtain ⟨first', hfirst', last', hlast', hle', hends'⟩ := exists_ends hshape (hinputs hempty.2)
  rcases le_or_gt last first' with hahead | hoverlap
  · refine h.exists_connects_of_ahead htolerance hpiece hother (one_mul 1) hlast hfirst' (by linarith)
      (fun input hinput => ?_) fun input hinput => ?_
    · linarith [(hends input hinput).2]
    · linarith [(hends' input hinput).1]
  rcases le_or_gt last' first with hbehind | hoverlap'
  · refine h.exists_connects_of_ahead htolerance hpiece hother (neg_mul_neg 1 1 |>.trans (one_mul 1)) hfirst hlast'
      (by linarith) (fun input hinput => ?_) fun input hinput => ?_
    · linarith [(hends input hinput).1]
    · linarith [(hends' input hinput).2]
  -- The regions overlap. One of them is a single input of the other, or they have two inputs in common.
  have hagree : ∀ input ∈ family.inputs piece.region, input ∈ family.inputs other.region →
      (piece.evaluate [input] : ℚ) = other.evaluate [input] := fun input hinput hinput' =>
    (h.agrees piece hpiece _ hinput.1 hinput.2).trans (h.agrees other hother _ hinput'.1 hinput'.2).symm
  rcases hle.eq_or_lt with rfl | hlt
  · have hcommon := mem_inputs_of_le hshape hfirst' hlast' hoverlap.le hoverlap'.le
    refine ⟨other, hother, Below.connects htolerance (below_one_iff.mpr fun input hinput => ?_) fun _ _ _ => le_rfl⟩
    rw [← le_antisymm (hends input hinput).1 (hends input hinput).2]
    exact (hagree first hfirst hcommon).ge
  rcases hle'.eq_or_lt with rfl | hlt'
  · have hcommon := mem_inputs_of_le hshape hfirst hlast hoverlap'.le hoverlap.le
    refine ⟨piece, hpiece, Below.connects htolerance (fun _ _ _ => le_rfl) (below_one_iff.mpr fun input hinput => ?_)⟩
    rw [← le_antisymm (hends' input hinput).1 (hends' input hinput).2]
    exact (hagree first' hcommon hfirst').ge
  have hcommon : max first first' < min last last' :=
    max_lt (lt_min hlt hoverlap') (lt_min hoverlap hlt')
  refine ⟨piece, hpiece, Below.connects htolerance (fun _ _ _ => le_rfl) (below_one_iff.mpr fun input _ => ?_)⟩
  refine (evaluate_eq_of_two hcommon (hagree _ ?_ ?_) (hagree _ ?_ ?_) input).ge
  · exact mem_inputs_of_le hshape hfirst hlast (le_max_left _ _) (hcommon.le.trans (min_le_left _ _))
  · exact mem_inputs_of_le hshape hfirst' hlast' (le_max_right _ _) (hcommon.le.trans (min_le_right _ _))
  · exact mem_inputs_of_le hshape hfirst hlast ((le_max_left _ _).trans hcommon.le) (min_le_left _ _)
  · exact mem_inputs_of_le hshape hfirst' hlast' ((le_max_right _ _).trans hcommon.le) (min_le_right _ _)

end PieceFamily

end ReluLogic
