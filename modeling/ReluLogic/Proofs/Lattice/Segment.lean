import ReluLogic.Proofs.Lattice.Domination
import ReluLogic.Proofs.LinearProgram.Interval

/-!
Pieces along a segment. On the way from one point of the box to another the value of the pieces starts at the value of
the near point and ends at that of the far one, so somewhere it passes the straight line between both from below. The
piece on whose region it does so is at most the value at the near point and at least the value at the far one.
-/

namespace ReluLogic

/-- The point at a share of the way from one point to another. -/
def segment (near far : List ℚ) (share : ℚ) : List ℚ :=
  List.zipWith (fun start target => start + (target - start) * share) near far

section Points

variable {dim : Nat} {near far : List ℚ} {share : ℚ}

theorem segment_zero (h : near.length = far.length) : segment near far 0 = near := by
  apply List.ext_getElem
  · rw [segment, List.length_zipWith, ← h, min_self]
  · intro place _ _
    simp only [segment, List.getElem_zipWith, mul_zero, add_zero]

theorem segment_one (h : near.length = far.length) : segment near far 1 = far := by
  apply List.ext_getElem
  · rw [segment, List.length_zipWith, h, min_self]
  · intro place _ _
    simp only [segment, List.getElem_zipWith, mul_one, add_sub_cancel]

/-- The box is convex. -/
theorem segment_mem (hnear : near ∈ unitBox dim) (hfar : far ∈ unitBox dim) (hzero : 0 ≤ share) (hone : share ≤ 1) :
    segment near far share ∈ unitBox dim := by
  refine ⟨by rw [segment, List.length_zipWith, hnear.1, hfar.1, min_self], fun value hvalue => ?_⟩
  obtain ⟨place, hplace, rfl⟩ := List.mem_iff_getElem.mp hvalue
  obtain ⟨hstart, hstart'⟩ := hnear.2 _ (List.getElem_mem (List.lt_length_left_of_zipWith hplace))
  obtain ⟨htarget, htarget'⟩ := hfar.2 _ (List.getElem_mem (List.lt_length_right_of_zipWith hplace))
  simp only [segment, List.getElem_zipWith]
  constructor <;> nlinarith

/-- Along a segment a form grows evenly. -/
theorem Affine.evaluate_segment (form : Affine ℚ) (h : near.length = far.length) (share : ℚ) :
    form.evaluate (segment near far share) =
      form.evaluate near + (form.evaluate far - form.evaluate near) * share := by
  have hsum : ∀ linear near far : List ℚ, near.length = far.length →
      (List.zipWith (· * ·) linear (segment near far share)).sum = (List.zipWith (· * ·) linear near).sum +
        ((List.zipWith (· * ·) linear far).sum - (List.zipWith (· * ·) linear near).sum) * share := by
    intro linear
    induction linear with
    | nil => simp
    | cons coefficient linear ih =>
        intro near far hlength
        match near, far, hlength with
        | [], [], _ => simp [segment]
        | start :: near, target :: far, hlength =>
            rw [segment, List.zipWith_cons_cons, ← segment]
            simp only [List.zipWith_cons_cons, List.sum_cons]
            rw [ih near far (Nat.succ.inj hlength)]
            ring
  rw [evaluate_eq, evaluate_eq, evaluate_eq, hsum _ near far h]
  ring

end Points

section Regions

variable {dim : Nat} {prototypes : List (Affine ℚ)} {region : List Boundary} {near far point : List ℚ} {share : ℚ}

/-- A region holds a point if every boundary has a prototype whose value there is on its side. -/
theorem inside_iff (hshape : Shaped dim prototypes) :
    Inside prototypes region point ↔ ∀ boundary ∈ region, ∃ form, prototypes[boundary.index]? = some form ∧
      boundary.sign.admits (form.evaluate point) 0 = true := by
  refine forall₂_congr fun boundary _ => ?_
  cases hform : prototypes[boundary.index]? with
  | none =>
      rw [Boundary.admits?, hform]
      refine iff_of_false (fun h => by cases h) ?_
      rintro ⟨_, hnone, -⟩
      cases hnone
  | some form =>
      have hne : form.coefficients ≠ [] := List.ne_nil_of_length_eq_add_one (hshape _ (List.mem_of_getElem? hform))
      simp only [Boundary.admits?, hform, Affine.evaluate?_eq_some hne, Option.map_some, Option.some.injEq,
        exists_eq_left']

/-- Regions are convex. -/
theorem inside_segment (hshape : Shaped dim prototypes) (hlength : near.length = far.length)
    (hnear : Inside prototypes region near) (hfar : Inside prototypes region far) (hzero : 0 ≤ share)
    (hone : share ≤ 1) : Inside prototypes region (segment near far share) := by
  rw [inside_iff hshape] at hnear hfar ⊢
  intro boundary hboundary
  obtain ⟨form, hform, hstart⟩ := hnear boundary hboundary
  obtain ⟨other, hother, htarget⟩ := hfar boundary hboundary
  cases hform.symm.trans hother
  refine ⟨form, hform, ?_⟩
  rw [form.evaluate_segment hlength]
  cases hsign : boundary.sign with
  | geq =>
      rw [hsign, Sign.admits_geq] at hstart htarget
      rw [Sign.admits_geq]
      nlinarith
  | leq =>
      rw [hsign, Sign.admits_leq] at hstart htarget
      rw [Sign.admits_leq]
      nlinarith

/-- The shares at which the prototypes change sign on the way, and those of the ends. -/
def crossings (prototypes : List (Affine ℚ)) (near far : List ℚ) : List ℚ :=
  0 :: 1 :: prototypes.map fun form => -form.evaluate near / (form.evaluate far - form.evaluate near)

/-- An affine value that is not negative at some place stays so up to its zero on both sides. -/
theorem nonneg_of_between {constant slope first last : ℚ}
    (hnone : ¬ (first < -constant / slope ∧ -constant / slope < last)) (hfirst : first < share) (hlast : share < last)
    (h : 0 ≤ constant + slope * share) : 0 ≤ constant + slope * first ∧ 0 ≤ constant + slope * last := by
  constructor
  · by_contra hlost
    obtain ⟨hlt, hle⟩ := (Interval.zero_between h (not_le.mp hlost)).2 hfirst.le
    exact hnone ⟨hlt, hle.trans_lt hlast⟩
  · by_contra hlost
    obtain ⟨hle, hlt⟩ := (Interval.zero_between h (not_le.mp hlost)).1 hlast.le
    exact hnone ⟨hfirst.trans_le hle, hlt⟩

theorem admits_of_between {sign : Sign} {constant slope first last : ℚ}
    (hnone : ¬ (first < -constant / slope ∧ -constant / slope < last)) (hfirst : first < share) (hlast : share < last)
    (h : sign.admits (constant + slope * share) 0 = true) :
    sign.admits (constant + slope * first) 0 = true ∧ sign.admits (constant + slope * last) 0 = true := by
  cases sign with
  | geq =>
      rw [Sign.admits_geq] at h ⊢
      rw [Sign.admits_geq]
      exact nonneg_of_between hnone hfirst hlast h
  | leq =>
      rw [Sign.admits_leq] at h ⊢
      rw [Sign.admits_leq]
      rw [← neg_div_neg_eq] at hnone
      obtain ⟨hstart, hend⟩ := nonneg_of_between hnone hfirst hlast (by linarith)
      constructor <;> linarith

/-- Between two neighbouring crossings a region is not left: it holds both if it holds a point between them. -/
theorem inside_of_between (hshape : Shaped dim prototypes) (hlength : near.length = far.length) {first last : ℚ}
    (hnone : ∀ crossing ∈ crossings prototypes near far, ¬ (first < crossing ∧ crossing < last))
    (hfirst : first < share) (hlast : share < last) (h : Inside prototypes region (segment near far share)) :
    Inside prototypes region (segment near far first) ∧ Inside prototypes region (segment near far last) := by
  simp only [inside_iff hshape, ← forall₂_and] at h ⊢
  intro boundary hboundary
  obtain ⟨form, hform, hadmits⟩ := h boundary hboundary
  have hcrossing := hnone (-form.evaluate near / (form.evaluate far - form.evaluate near))
    (List.mem_cons_of_mem _ (List.mem_cons_of_mem _ (List.mem_map_of_mem (List.mem_of_getElem? hform))))
  rw [form.evaluate_segment hlength] at hadmits
  obtain ⟨hstart, hend⟩ := admits_of_between hcrossing hfirst hlast hadmits
  rw [← form.evaluate_segment hlength] at hstart hend
  exact ⟨⟨form, hform, hstart⟩, form, hform, hend⟩

end Regions

/-! ### Rising values -/

/-- Among finitely many shares there are two neighbours at the first of which a value is at most zero and at the second
of which it is at least zero, if so it is at both ends. -/
theorem exists_rise (shares : List ℚ) (hzero : 0 ∈ shares) (hone : 1 ∈ shares) {excess : ℚ → ℚ}
    (hstart : excess 0 ≤ 0) (hend : 0 ≤ excess 1) :
    ∃ first last, 0 ≤ first ∧ first < last ∧ last ≤ 1 ∧
      (∀ share ∈ shares, ¬ (first < share ∧ share < last)) ∧ excess first ≤ 0 ∧ 0 ≤ excess last := by
  -- The first share behind zero at which zero is reached, and the share before it.
  obtain ⟨last, hlast, hleast⟩ := (shares.toFinset.filter fun share => 0 < share ∧ 0 ≤ excess share).exists_min_image id
    ⟨1, Finset.mem_filter.mpr ⟨List.mem_toFinset.mpr hone, one_pos, hend⟩⟩
  obtain ⟨first, hfirst, hgreatest⟩ := (shares.toFinset.filter (· < last)).exists_max_image id
    ⟨0, Finset.mem_filter.mpr ⟨List.mem_toFinset.mpr hzero, (Finset.mem_filter.mp hlast).2.1⟩⟩
  simp only [Finset.mem_filter, List.mem_toFinset, id_eq, and_imp] at hlast hleast hfirst hgreatest
  obtain ⟨-, hpos, hreached⟩ := hlast
  obtain ⟨hmem, hlt⟩ := hfirst
  have hnonneg : 0 ≤ first := hgreatest 0 hzero hpos
  refine ⟨first, last, hnonneg, hlt, hleast 1 hone one_pos hend, fun share hshare => ?_, ?_, hreached⟩
  · rintro ⟨hbehind, hbefore⟩
    exact absurd (hgreatest share hshare hbefore) (not_le.mpr hbehind)
  · rcases hnonneg.eq_or_lt with rfl | hbehind
    · exact hstart
    · by_contra hexceeds
      exact absurd (hleast first hmem hbehind (not_le.mp hexceeds).le) (not_le.mpr hlt)

/-- An even growth that passes zero from below on a part of the way does so on the whole way. -/
theorem nonpos_nonneg_of_rise {start slope first last : ℚ} (hzero : 0 ≤ first) (hlt : first < last) (hone : last ≤ 1)
    (hfirst : start + slope * first ≤ 0) (hlast : 0 ≤ start + slope * last) : start ≤ 0 ∧ 0 ≤ start + slope := by
  have hrising : 0 ≤ slope := by
    by_contra hfalling
    have hless := mul_lt_mul_of_neg_left hlt (not_le.mp hfalling)
    linarith
  have hbefore := mul_nonneg hrising hzero
  have hbehind := mul_nonneg hrising (sub_nonneg.mpr hone)
  constructor <;> linarith

/-! ### Patches -/

/-- Pieces over `dim` inputs whose regions cover the box, each with the values of one function on its region. -/
structure PieceFamily.Patches (family : PieceFamily ℚ) (dim : Nat) (value : List ℚ → ℚ) : Prop where
  wellFormed : family.WellFormed dim
  covers : ∀ point ∈ unitBox dim, ∃ piece ∈ family.pieces, Inside family.prototypes piece.region point
  agrees : ∀ piece ∈ family.pieces, ∀ point ∈ unitBox dim, Inside family.prototypes piece.region point →
    piece.evaluate point = value point

/-- From one point of the box to another some piece is at most the value at the first and at least the value at the
second. -/
theorem PieceFamily.Patches.exists_rising {family : PieceFamily ℚ} {dim : Nat} {value : List ℚ → ℚ}
    (h : family.Patches dim value) {near far : List ℚ} (hnear : near ∈ unitBox dim) (hfar : far ∈ unitBox dim) :
    ∃ piece ∈ family.pieces, piece.evaluate near ≤ value near ∧ value far ≤ piece.evaluate far := by
  have hlength : near.length = far.length := hnear.1.trans hfar.1.symm
  set excess : ℚ → ℚ := fun share =>
    value (segment near far share) - (value near + (value far - value near) * share)
  have hstart : excess 0 = 0 := by
    simp only [excess, segment_zero hlength, mul_zero, add_zero, sub_self]
  have hend : excess 1 = 0 := by
    simp only [excess, segment_one hlength, mul_one, add_sub_cancel, sub_self]
  obtain ⟨first, last, hzero, hlt, hone, hnone, hlow, hhigh⟩ :=
    exists_rise (crossings family.prototypes near far) List.mem_cons_self
      (List.mem_cons_of_mem _ List.mem_cons_self) hstart.le hend.ge
  -- One piece covers the whole way between the two crossings, since it covers a share between them.
  obtain ⟨middle, hfirst, hlast⟩ : ∃ middle, first < middle ∧ middle < last :=
    ⟨(first + last) / 2, by linarith, by linarith⟩
  obtain ⟨piece, hpiece, hinside⟩ := h.covers (segment near far middle)
    (segment_mem hnear hfar (hzero.trans hfirst.le) (hlast.le.trans hone))
  obtain ⟨hbefore, hbehind⟩ := inside_of_between h.wellFormed.shaped hlength hnone hfirst hlast hinside
  have hvalue : ∀ {share}, 0 ≤ share → share ≤ 1 →
      Inside family.prototypes piece.region (segment near far share) →
        excess share = piece.evaluate near - value near +
          (piece.evaluate far - value far - (piece.evaluate near - value near)) * share := by
    intro share hshare hshare' hpoint
    have hagrees := h.agrees piece hpiece _ (segment_mem hnear hfar hshare hshare') hpoint
    simp only [excess]
    rw [← hagrees, Piece.evaluate, Affine.evaluate_segment _ hlength, ← Piece.evaluate, ← Piece.evaluate]
    ring
  rw [hvalue hzero (hlt.le.trans hone) hbefore] at hlow
  rw [hvalue (hzero.trans hlt.le) hone hbehind] at hhigh
  obtain ⟨hle, hge⟩ := nonpos_nonneg_of_rise hzero hlt hone hlow hhigh
  exact ⟨piece, hpiece, by linarith, by linarith⟩

end ReluLogic
