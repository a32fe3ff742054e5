import ReluLogic.LinearProgram.Basic
import ReluLogic.Proofs.Fallible
import ReluLogic.Proofs.Rational

/-!
Linear programs and what an oracle may be trusted with. A coherent oracle answers every well-shaped program and
reports emptiness by the constraints alone, and a persistent one goes on calling an empty program empty. In the
exact reading the feasible points of a program are the points of the unit box that lie on the right side of every
constraint, and an exact oracle gives the greatest value of the objective over them, or finds that there are none.
On a region with a feasible point such an oracle tells the true position of a form.
-/

namespace ReluLogic

section Coherence

variable {α : Type} [Scalar α]

/-- All forms of a program have a constant term and one coefficient per input. -/
def Uniform (dim : Nat) (constraints : List (Constraint α)) : Prop :=
  ∀ constraint ∈ constraints, constraint.form.coefficients.length = dim + 1

/-- An oracle that answers every program over `dim` inputs, and whether it reports it as empty depends on
the constraints only. -/
structure Oracle.Coherent (oracle : Oracle α) (dim : Nat) : Prop where
  answers : ∀ {objective : Affine α} {constraints : List (Constraint α)},
    objective.coefficients.length = dim + 1 → Uniform dim constraints →
      ∃ outcome, oracle.maximize objective constraints = .ok outcome
  infeasible_iff : ∀ {objective other : Affine α} {constraints : List (Constraint α)},
    objective.coefficients.length = dim + 1 → other.coefficients.length = dim + 1 →
      Uniform dim constraints →
        (oracle.maximize objective constraints = .ok .infeasible ↔
          oracle.maximize other constraints = .ok .infeasible)

/-- A program that the oracle reports as empty stays so under further constraints. -/
def Oracle.Persistent (oracle : Oracle α) (dim : Nat) : Prop :=
  ∀ {objective : Affine α} {constraints more : List (Constraint α)},
    objective.coefficients.length = dim + 1 → Uniform dim (constraints ++ more) →
      oracle.maximize objective constraints = .ok .infeasible →
        oracle.maximize objective (constraints ++ more) = .ok .infeasible

namespace Affine

theorem length_zero (dim : Nat) : (zero dim : Affine α).coefficients.length = dim + 1 :=
  List.length_replicate

theorem length_negate (form : Affine α) : form.negate.coefficients.length = form.coefficients.length :=
  List.length_map _

end Affine

namespace Oracle.Coherent

variable {oracle : Oracle α} {dim : Nat} {constraints : List (Constraint α)} {form : Affine α}

theorem exists_isFeasible_eq (h : oracle.Coherent dim) (hconstraints : Uniform dim constraints) :
    ∃ found, oracle.isFeasible dim constraints = .ok found := by
  obtain ⟨outcome, houtcome⟩ := h.answers (Affine.length_zero dim) hconstraints
  exact ⟨outcome.isOptimal, map_eq_ok.mpr ⟨outcome, houtcome, rfl⟩⟩

/-- Where a region is reported non-empty every objective has an optimum. -/
theorem exists_optimal (h : oracle.Coherent dim) (hform : form.coefficients.length = dim + 1)
    (hconstraints : Uniform dim constraints) (hfeasible : oracle.isFeasible dim constraints = .ok true) :
    ∃ value, oracle.maximize form constraints = .ok (.optimal value) := by
  obtain ⟨outcome, houtcome⟩ := h.answers hform hconstraints
  cases outcome with
  | optimal value => exact ⟨value, houtcome⟩
  | infeasible =>
      have hzero := (h.infeasible_iff hform (Affine.length_zero dim) hconstraints).mp houtcome
      rw [isFeasible, hzero] at hfeasible
      cases hfeasible

theorem exists_position_eq (h : oracle.Coherent dim) (hform : form.coefficients.length = dim + 1)
    (hconstraints : Uniform dim constraints) (hfeasible : oracle.isFeasible dim constraints = .ok true) :
    ∃ position, oracle.position form constraints = .ok position := by
  obtain ⟨low, hlow⟩ := h.exists_optimal (form.length_negate.trans hform) hconstraints hfeasible
  obtain ⟨high, hhigh⟩ := h.exists_optimal hform hconstraints hfeasible
  refine ⟨Position.ofExtremes oracle.tolerance (-low) high, ?_⟩
  rw [position, minimize, hlow, hhigh]
  rfl

end Oracle.Coherent

theorem Oracle.isFeasible_eq_false_iff {oracle : Oracle α} {dim : Nat} {constraints : List (Constraint α)} :
    oracle.isFeasible dim constraints = .ok false ↔
      oracle.maximize (Affine.zero dim) constraints = .ok .infeasible := by
  rw [isFeasible, map_eq_ok]
  constructor
  · rintro ⟨outcome, houtcome, hempty⟩
    cases outcome with
    | optimal value => cases hempty
    | infeasible => exact houtcome
  · exact fun houtcome => ⟨_, houtcome, rfl⟩

theorem Oracle.Persistent.isFeasible_append {oracle : Oracle α} {dim : Nat}
    {constraints more : List (Constraint α)} (h : oracle.Persistent dim) (hmore : Uniform dim (constraints ++ more))
    (hempty : oracle.isFeasible dim constraints = .ok false) :
    oracle.isFeasible dim (constraints ++ more) = .ok false :=
  isFeasible_eq_false_iff.mpr
    (h (Affine.length_zero dim) hmore (isFeasible_eq_false_iff.mp hempty))

end Coherence

/-- A point lies on the side of the constraint. -/
def Constraint.Holds (constraint : Constraint ℚ) (point : List ℚ) : Prop :=
  constraint.sign.admits (constraint.form.evaluate point) 0 = true

/-- The points of the unit box that satisfy all constraints. -/
def feasible (dim : Nat) (constraints : List (Constraint ℚ)) : Set (List ℚ) :=
  {point | point ∈ unitBox dim ∧ ∀ constraint ∈ constraints, constraint.Holds point}

/-- An oracle without slack that finds the true maximum over the feasible points, and finds none exactly
when there is no such point. -/
structure Oracle.Exact (oracle : Oracle ℚ) (dim : Nat) : Prop where
  tolerance_eq : oracle.tolerance = 0
  optimal : ∀ (objective : Affine ℚ) (constraints : List (Constraint ℚ)),
    objective.coefficients.length = dim + 1 → Uniform dim constraints →
      (feasible dim constraints).Nonempty →
        ∃ value, oracle.maximize objective constraints = .ok (.optimal value) ∧
          IsGreatest (objective.evaluate '' feasible dim constraints) value
  infeasible : ∀ (objective : Affine ℚ) (constraints : List (Constraint ℚ)),
    objective.coefficients.length = dim + 1 → Uniform dim constraints →
      feasible dim constraints = ∅ → oracle.maximize objective constraints = .ok .infeasible

/-- The answers of the oracle are exact, whatever its slack. -/
def Oracle.Maximizes (oracle : Oracle ℚ) (dim : Nat) : Prop :=
  Oracle.Exact { oracle with tolerance := 0 } dim

/-- An oracle that never calls a program infeasible that has a feasible point. -/
def Oracle.Permissive (oracle : Oracle ℚ) (dim : Nat) : Prop :=
  ∀ (objective : Affine ℚ) (constraints : List (Constraint ℚ)), objective.coefficients.length = dim + 1 →
    Uniform dim constraints → oracle.maximize objective constraints = .ok .infeasible →
      feasible dim constraints = ∅

namespace Affine

theorem sum_zipWith_neg (coefficients point : List ℚ) :
    (List.zipWith (· * ·) (coefficients.map (-·)) point).sum =
      -(List.zipWith (· * ·) coefficients point).sum := by
  induction coefficients generalizing point with
  | nil => simp
  | cons coefficient coefficients ih =>
      cases point with
      | nil => simp
      | cons value point =>
          simp only [List.map_cons, List.zipWith_cons_cons, List.sum_cons, ih]
          ring

theorem evaluate_negate (form : Affine ℚ) (point : List ℚ) :
    form.negate.evaluate point = -form.evaluate point := by
  obtain ⟨coefficients⟩ := form
  cases coefficients with
  | nil => simp [evaluate_eq, negate, constant, linear]
  | cons first rest =>
      simp only [evaluate_eq, negate, constant, linear, List.map_cons, List.headD_cons, List.tail_cons,
        sum_zipWith_neg]
      ring

end Affine

namespace Oracle.Exact

variable {oracle : Oracle ℚ} {dim : Nat} {constraints : List (Constraint ℚ)} {form : Affine ℚ}

/-- An exact oracle answers every program over the right number of inputs. -/
theorem maximize_eq (h : oracle.Exact dim) (hform : form.coefficients.length = dim + 1)
    (hconstraints : Uniform dim constraints) :
    (∃ value, oracle.maximize form constraints = .ok (.optimal value) ∧
      IsGreatest (form.evaluate '' feasible dim constraints) value) ∨
    (oracle.maximize form constraints = .ok .infeasible ∧ feasible dim constraints = ∅) := by
  rcases Set.eq_empty_or_nonempty (feasible dim constraints) with hempty | hpoint
  · exact Or.inr ⟨h.infeasible form constraints hform hconstraints hempty, hempty⟩
  · exact Or.inl (h.optimal form constraints hform hconstraints hpoint)

theorem maximizes (h : oracle.Exact dim) : oracle.Maximizes dim where
  tolerance_eq := rfl
  optimal := h.optimal
  infeasible := h.infeasible

theorem isFeasible_eq (h : oracle.Exact dim) (hconstraints : Uniform dim constraints) :
    (oracle.isFeasible dim constraints = .ok true ∧ (feasible dim constraints).Nonempty) ∨
    (oracle.isFeasible dim constraints = .ok false ∧ feasible dim constraints = ∅) := by
  rcases h.maximize_eq (Affine.length_zero dim) hconstraints with ⟨value, hok, hgreatest⟩ | ⟨hok, hempty⟩
  · refine Or.inl ⟨?_, Set.image_nonempty.mp ⟨value, hgreatest.1⟩⟩
    rw [isFeasible, hok]
    rfl
  · refine Or.inr ⟨?_, hempty⟩
    rw [isFeasible, hok]
    rfl

/-- The smallest value of a form is the negative of the greatest value of its negation. -/
theorem minimize_eq (h : oracle.Exact dim) (hform : form.coefficients.length = dim + 1)
    (hconstraints : Uniform dim constraints) (hpoint : (feasible dim constraints).Nonempty) :
    ∃ value, oracle.minimize form constraints = .ok (.optimal value) ∧
      IsLeast (form.evaluate '' feasible dim constraints) value := by
  obtain ⟨value, hok, ⟨point, hmem, rfl⟩, hupper⟩ := h.optimal form.negate constraints
    ((form.length_negate).trans hform) hconstraints hpoint
  refine ⟨-form.negate.evaluate point, ?_, ⟨point, hmem, ?_⟩, ?_⟩
  · rw [minimize, hok]
    rfl
  · rw [Affine.evaluate_negate, neg_neg]
  · rintro _ ⟨other, hother, rfl⟩
    have := hupper ⟨other, hother, rfl⟩
    rw [Affine.evaluate_negate] at this
    linarith

theorem permissive (h : oracle.Exact dim) : oracle.Permissive dim := by
  intro objective constraints hobjective hconstraints hok
  rcases h.maximize_eq hobjective hconstraints with ⟨value, hvalue, -⟩ | ⟨-, hempty⟩
  · rw [hok] at hvalue
    cases hvalue
  · exact hempty

theorem coherent (h : oracle.Exact dim) : oracle.Coherent dim where
  answers hform hconstraints := by
    rcases h.maximize_eq hform hconstraints with ⟨value, hok, -⟩ | ⟨hok, -⟩
    · exact ⟨_, hok⟩
    · exact ⟨_, hok⟩
  infeasible_iff := by
    have himp : ∀ {objective other : Affine ℚ} {constraints : List (Constraint ℚ)},
        objective.coefficients.length = dim + 1 → other.coefficients.length = dim + 1 →
          Uniform dim constraints → oracle.maximize objective constraints = .ok .infeasible →
            oracle.maximize other constraints = .ok .infeasible := by
      intro objective other constraints hobjective hother hconstraints hok
      exact h.infeasible other constraints hother hconstraints
        (h.permissive objective constraints hobjective hconstraints hok)
    intro objective other constraints hobjective hother hconstraints
    exact ⟨himp hobjective hother hconstraints, himp hother hobjective hconstraints⟩

theorem persistent (h : oracle.Exact dim) : oracle.Persistent dim := by
  intro objective constraints more hobjective hmore hinfeasible
  have hconstraints : Uniform dim constraints := (List.forall_mem_append.mp hmore).1
  have hempty := h.permissive objective constraints hobjective hconstraints hinfeasible
  refine h.infeasible objective _ hobjective hmore (Set.eq_empty_of_forall_notMem fun point hpoint => ?_)
  have hfewer : point ∈ feasible dim constraints := ⟨hpoint.1, (List.forall_mem_append.mp hpoint.2).1⟩
  rw [hempty] at hfewer
  exact hfewer

/-- The position of a form tells its sign: an open form is nowhere negative on the region and a closed one
nowhere positive. -/
theorem position_sound (h : oracle.Exact dim) (hform : form.coefficients.length = dim + 1)
    (hconstraints : Uniform dim constraints) {position : Position}
    (hposition : oracle.position form constraints = .ok position) :
    (position = .over → ∀ point ∈ feasible dim constraints, 0 ≤ form.evaluate point) ∧
      (position = .under → ∀ point ∈ feasible dim constraints, form.evaluate point ≤ 0) := by
  rcases Set.eq_empty_or_nonempty (feasible dim constraints) with hempty | hpoint
  · rw [hempty]
    exact ⟨fun _ point hmem => absurd hmem (Set.notMem_empty point),
      fun _ point hmem => absurd hmem (Set.notMem_empty point)⟩
  obtain ⟨low, hlow, hleast⟩ := h.minimize_eq hform hconstraints hpoint
  obtain ⟨high, hhigh, hgreatest⟩ := h.optimal form constraints hform hconstraints hpoint
  rw [Oracle.position, hlow, hhigh, h.tolerance_eq] at hposition
  cases hposition
  refine ⟨fun hover point hmem => ?_, fun hunder point hmem => ?_⟩
  · rw [Position.ofExtremes] at hover
    split_ifs at hover with hopen
    rw [neg_zero] at hopen
    exact hopen.trans (hleast.2 ⟨point, hmem, rfl⟩)
  · rw [Position.ofExtremes] at hunder
    split_ifs at hunder with _ hclosed
    exact (hgreatest.2 ⟨point, hmem, rfl⟩).trans hclosed

end Oracle.Exact

/-- An oracle with exact answers answers every program over the right number of inputs. -/
theorem Oracle.Maximizes.maximize_eq {oracle : Oracle ℚ} {dim : Nat} {constraints : List (Constraint ℚ)}
    {form : Affine ℚ} (h : oracle.Maximizes dim) (hform : form.coefficients.length = dim + 1)
    (hconstraints : Uniform dim constraints) :
    (∃ value, oracle.maximize form constraints = .ok (.optimal value) ∧
      IsGreatest (form.evaluate '' feasible dim constraints) value) ∨
    (oracle.maximize form constraints = .ok .infeasible ∧ feasible dim constraints = ∅) := by
  have hexact : Oracle.Exact { oracle with tolerance := 0 } dim := h
  exact hexact.maximize_eq hform hconstraints

end ReluLogic
