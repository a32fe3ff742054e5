import ReluLogic.LinearProgram.Basic
import ReluLogic.Proofs.Fallible
import ReluLogic.Proofs.LinearProgram.Feasible

/-!
Regions over a growing list of prototypes. A region whose boundaries refer to prototypes of the list stands
for the same constraints, and holds the same points, when further prototypes are put behind the list.
-/

namespace ReluLogic

section Resolution

variable {α : Type} {prototypes extended : List (Affine α)} {region : List Boundary}

/-- All boundaries of a region refer to prototypes of the list. -/
def Refers (prototypes : List (Affine α)) (region : List Boundary) : Prop :=
  ∀ boundary ∈ region, boundary.index < prototypes.length

theorem Refers.mono (h : Refers prototypes region) (hextended : prototypes <+: extended) :
    Refers extended region :=
  fun boundary hmem => (h boundary hmem).trans_le hextended.length_le

theorem refers_append {more : List Boundary} :
    Refers prototypes (region ++ more) ↔ Refers prototypes region ∧ Refers prototypes more :=
  List.forall_mem_append

theorem getElem?_of_extends (hextended : prototypes <+: extended) {place : Nat}
    (h : place < prototypes.length) : extended[place]? = prototypes[place]? := by
  obtain ⟨more, rfl⟩ := hextended
  exact List.getElem?_append_left h

theorem Boundary.resolve_eq_ok {boundary : Boundary} {constraint : Constraint α} :
    boundary.resolve prototypes = .ok constraint ↔
      prototypes[boundary.index]? = some constraint.form ∧ constraint.sign = boundary.sign := by
  obtain ⟨form, sign⟩ := constraint
  rw [resolve]
  cases prototypes[boundary.index]? with
  | none =>
      constructor
      · intro h
        cases h
      · intro h
        cases h.1
  | some found =>
      constructor
      · intro h
        cases h
        exact ⟨rfl, rfl⟩
      · rintro ⟨h, rfl⟩
        cases h
        rfl

theorem Refers.exists_constraints (h : Refers prototypes region) :
    ∃ constraints, regionConstraints prototypes region = .ok constraints :=
  exists_mapM_eq_ok fun boundary hmem =>
    ⟨⟨prototypes.get ⟨boundary.index, h boundary hmem⟩, boundary.sign⟩,
      Boundary.resolve_eq_ok.mpr ⟨List.getElem?_eq_getElem _, rfl⟩⟩

/-- Further prototypes do not change what a region stands for. -/
theorem Refers.regionConstraints_eq (h : Refers prototypes region)
    (hextended : prototypes <+: extended) :
    regionConstraints extended region = regionConstraints prototypes region := by
  refine mapM_congr_mem fun boundary hmem => ?_
  have hbound := h boundary hmem
  rw [Boundary.resolve, Boundary.resolve, getElem?_of_extends hextended hbound,
    List.getElem?_eq_getElem hbound]

/-- What a region stands for it stands for over further prototypes too. -/
theorem regionConstraints_of_extends (hextended : prototypes <+: extended) {constraints : List (Constraint α)}
    (h : regionConstraints prototypes region = .ok constraints) :
    regionConstraints extended region = .ok constraints := by
  refine mapM_eq_ok.mpr ((mapM_eq_ok.mp h).imp fun boundary constraint hresolve => ?_)
  obtain ⟨hform, hsign⟩ := Boundary.resolve_eq_ok.mp hresolve
  have hbound := (List.getElem?_eq_some_iff.mp hform).1
  exact Boundary.resolve_eq_ok.mpr ⟨(getElem?_of_extends hextended hbound).trans hform, hsign⟩

end Resolution

/-- All forms have a constant term and one coefficient per input. -/
def Shaped {α : Type} (dim : Nat) (forms : List (Affine α)) : Prop :=
  ∀ form ∈ forms, form.coefficients.length = dim + 1

theorem shaped_append {α : Type} {dim : Nat} {forms others : List (Affine α)} :
    Shaped dim (forms ++ others) ↔ Shaped dim forms ∧ Shaped dim others :=
  List.forall_mem_append

theorem Shaped.uniform {α : Type} {dim : Nat} {prototypes : List (Affine α)} {region : List Boundary}
    {constraints : List (Constraint α)} (hshape : Shaped dim prototypes)
    (h : regionConstraints prototypes region = .ok constraints) : Uniform dim constraints := by
  intro constraint hmem
  obtain ⟨boundary, -, hresolve⟩ := exists_of_mem_mapM h hmem
  exact hshape _ (List.mem_of_getElem? (Boundary.resolve_eq_ok.mp hresolve).1)

/-- The boundaries of a region as the forms they hold to a sign. -/
def sides {α : Type} (prototypes : List (Affine α)) (region : List Boundary) :
    List (Option (Affine α) × Sign) :=
  region.map fun boundary => (prototypes[boundary.index]?, boundary.sign)

theorem Refers.sides_eq {α : Type} {prototypes extended : List (Affine α)} {region : List Boundary}
    (h : Refers prototypes region) (hextended : prototypes <+: extended) :
    sides extended region = sides prototypes region :=
  List.map_congr_left fun boundary hmem => by rw [getElem?_of_extends hextended (h boundary hmem)]

/-- A point lies on the sides of all boundaries of a region. -/
def Inside (prototypes : List (Affine ℚ)) (region : List Boundary) (point : List ℚ) : Prop :=
  ∀ boundary ∈ region, boundary.admits? prototypes point 0 = some true

variable {prototypes extended : List (Affine ℚ)} {region : List Boundary} {point : List ℚ} {dim : Nat}

theorem Piece.contains_iff_inside {piece : Piece} :
    piece.contains prototypes point 0 = true ↔ Inside prototypes piece.region point :=
  Piece.contains_iff

theorem inside_append {more : List Boundary} :
    Inside prototypes (region ++ more) point ↔
      Inside prototypes region point ∧ Inside prototypes more point :=
  List.forall_mem_append

theorem inside_cons {boundary : Boundary} :
    Inside prototypes (boundary :: region) point ↔
      Inside prototypes [boundary] point ∧ Inside prototypes region point := by
  rw [← List.singleton_append, inside_append]

/-- Which points lie inside a region depends on what its boundaries stand for only. -/
theorem inside_congr {others : List (Affine ℚ)} {other : List Boundary}
    (h : sides prototypes region = sides others other) :
    Inside prototypes region point ↔ Inside others other point := by
  have hall : ∀ (known : List (Affine ℚ)) (bounds : List Boundary), Inside known bounds point ↔
      ∀ side ∈ sides known bounds, Boundary.admits? side.1.toList point 0 ⟨0, side.2⟩ = some true := by
    intro known bounds
    rw [sides, List.forall_mem_map, Inside]
    refine forall_congr' fun boundary => forall_congr' fun _ => ?_
    rw [Boundary.admits?, Boundary.admits?]
    cases known[boundary.index]? <;> rfl
  rw [hall, hall, h]

theorem Refers.inside_iff (h : Refers prototypes region) (hextended : prototypes <+: extended) :
    Inside extended region point ↔ Inside prototypes region point :=
  inside_congr (h.sides_eq hextended)

/-- A boundary on a known form asks for the sign of its value. -/
theorem inside_singleton {index : Nat} {form : Affine ℚ} (hform : prototypes[index]? = some form)
    (hshape : form.coefficients.length = dim + 1) (sign : Sign) :
    Inside prototypes [⟨index, sign⟩] point ↔ sign.admits (form.evaluate point) 0 = true := by
  have hne : form.coefficients ≠ [] := List.ne_nil_of_length_eq_add_one hshape
  rw [Inside, List.forall_mem_singleton, Boundary.admits?]
  simp only [hform, Affine.evaluate?_eq_some hne, Option.map_some, Option.some.injEq]

/-- The constraints of a region hold at the points inside. -/
theorem holds_iff_inside {constraints : List (Constraint ℚ)} (hshape : Shaped dim prototypes)
    (h : regionConstraints prototypes region = .ok constraints) :
    (∀ constraint ∈ constraints, constraint.Holds point) ↔ Inside prototypes region point := by
  have hall := mapM_eq_ok.mp h
  clear h
  induction hall with
  | nil =>
      exact ⟨fun _ boundary hmem => absurd hmem List.not_mem_nil,
        fun _ constraint hmem => absurd hmem List.not_mem_nil⟩
  | @cons boundary constraint region constraints hresolve _ ih =>
      obtain ⟨hform, hsign⟩ := Boundary.resolve_eq_ok.mp hresolve
      have hlength := hshape _ (List.mem_of_getElem? hform)
      rw [List.forall_mem_cons, Inside, List.forall_mem_cons]
      refine and_congr ?_ ih
      rw [Constraint.Holds, hsign, ← inside_singleton hform hlength, Inside,
        List.forall_mem_singleton]

/-- The feasible points of a region's constraints are the points of the box inside the region. -/
theorem mem_feasible_iff {constraints : List (Constraint ℚ)} (hshape : Shaped dim prototypes)
    (h : regionConstraints prototypes region = .ok constraints) :
    point ∈ feasible dim constraints ↔ point ∈ unitBox dim ∧ Inside prototypes region point :=
  and_congr_right fun _ => holds_iff_inside hshape h

end ReluLogic
