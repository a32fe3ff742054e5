import ReluLogic.Proofs.LinearProgram.AntiCycling

/-!
The course of the whole method without slack, one tableau after the other: the pivots of phase one, the exchange of
artificial columns row by row, and the pivots of phase two. Every tableau on the way is in canonical form, has no
negative bound and keeps the solutions of the first one; and from one to the next the objective of the running phase
does not fall. In the exchange an artificial column is basic at zero, so a pivot on an entry of any sign moves no bound,
and the row always has an entry to pivot on. What the method answers it reads off a tableau on the way.
-/

namespace ReluLogic

namespace Simplex

open Tableau Relation

/-- The part of the method that is running. -/
inductive Phase (rows : Nat) where
  | feasibility
  /-- The artificial columns of the rows in `rest` have not been exchanged yet. -/
  | exchange (rest : List (Fin rows))
  | optimality

/-- The running phase and its tableau. -/
structure State (linear : List ℚ) (inequalities : List (Inequality ℚ)) where
  phase : Phase inequalities.length
  tableau : Tableau ℚ inequalities.length (width linear.length inequalities)

variable {linear : List ℚ} {inequalities : List (Inequality ℚ)}

/-- The objective of phase one: minus the sum of the artificial columns. -/
abbrev artificialCosts (dim : Nat) (inequalities : List (Inequality ℚ)) : Vector ℚ (width dim inequalities) :=
  phaseOneCosts _ (ordinary dim inequalities)

/-- The objective of the running phase; the exchange is under that of phase one. -/
def State.costs (state : State linear inequalities) : Vector ℚ (width linear.length inequalities) :=
  match state.phase with
  | .feasibility | .exchange _ => artificialCosts linear.length inequalities
  | .optimality => phaseTwoCosts _ linear

/-- Phase one is left out where the origin satisfies all inequalities. -/
def initial (linear : List ℚ) (inequalities : List (Inequality ℚ)) : State linear inequalities where
  phase := if Inequality.artificials inequalities = 0 then .optimality else .feasibility
  tableau := build linear.length inequalities

/-- From one tableau of the method to the next. -/
inductive Advances : State linear inequalities → State linear inequalities → Prop
  | approach {tableau next : Tableau ℚ _ _}
      (hnext : Follows (artificialCosts linear.length inequalities) (width linear.length inequalities) tableau next) :
      Advances ⟨.feasibility, tableau⟩ ⟨.feasibility, next⟩
  | settle {tableau : Tableau ℚ _ _}
      (hoptimal : tableau.step (artificialCosts linear.length inequalities) (width linear.length inequalities) 0 =
        .optimal)
      (hvalue : 0 ≤ tableau.objectiveValue (artificialCosts linear.length inequalities)) :
      Advances ⟨.feasibility, tableau⟩ ⟨.exchange (List.finRange _), tableau⟩
  | exchange {tableau : Tableau ℚ _ _} (row : Fin inequalities.length) (rest : List (Fin inequalities.length)) :
      Advances ⟨.exchange (row :: rest), tableau⟩
        ⟨.exchange rest, evictRow (ordinary linear.length inequalities) 0 tableau row⟩
  | enter {tableau : Tableau ℚ _ _} : Advances ⟨.exchange [], tableau⟩ ⟨.optimality, tableau⟩
  | ascend {tableau next : Tableau ℚ _ _}
      (hnext : Follows (phaseTwoCosts _ linear) (ordinary linear.length inequalities) tableau next) :
      Advances ⟨.optimality, tableau⟩ ⟨.optimality, next⟩

/-- The method comes to a phase and a tableau. -/
def Reaches (state : State linear inequalities) : Prop :=
  ReflTransGen Advances (initial linear inequalities) state

/-- What is answered at a tableau: an optimum of phase one below zero shows that there is no feasible point, one of
phase two is the optimum of the program. -/
inductive Concludes (constant : ℚ) : State linear inequalities → Outcome ℚ → Prop
  | infeasible {tableau : Tableau ℚ _ _}
      (hoptimal : tableau.step (artificialCosts linear.length inequalities) (width linear.length inequalities) 0 =
        .optimal)
      (hvalue : tableau.objectiveValue (artificialCosts linear.length inequalities) < 0) :
      Concludes constant ⟨.feasibility, tableau⟩ .infeasible
  | optimal {tableau : Tableau ℚ _ _}
      (hoptimal : tableau.step (phaseTwoCosts _ linear) (ordinary linear.length inequalities) 0 = .optimal) :
      Concludes constant ⟨.optimality, tableau⟩ (.optimal (constant + tableau.objectiveValue (phaseTwoCosts _ linear)))

/-! ### One step -/

section Exchange

variable {dim : Nat} {tableau : Tableau ℚ inequalities.length (width dim inequalities)} {row : Fin inequalities.length}

/-- The exchange of an artificial column changes no objective. -/
theorem objectiveValue_evictRow (h : Sound (build dim inequalities) tableau) (hsettled : tableau.Settled)
    (costs : Vector ℚ (width dim inequalities)) :
    (evictRow (ordinary dim inequalities) 0 tableau row).objectiveValue costs = tableau.objectiveValue costs := by
  rcases evictRow_cases h row with ⟨-, hsame⟩ | ⟨hbasic, column, -, hentry, hpivot⟩
  · rw [hsame]
  · rw [hpivot, h.canonical.objectiveValue_pivot hentry, ratio, hsettled row hbasic, zero_div, mul_zero, add_zero]

end Exchange

/-- What holds at every tableau of the method. -/
structure State.Valid (state : State linear inequalities) : Prop where
  sound : Sound (build linear.length inequalities) state.tableau
  exchanging : ∀ rest, state.phase = .exchange rest → Exchanging rest state.tableau
  cleared : state.phase = .optimality → state.tableau.Cleared

variable {state first next : State linear inequalities}

theorem valid_initial : (initial linear inequalities).Valid where
  sound := build_sound
  exchanging rest hphase := by
    rw [initial] at hphase
    split_ifs at hphase
  cleared hphase := by
    rw [initial] at hphase
    split_ifs at hphase with hartificials
    exact cleared_build hartificials

theorem State.Valid.advances (h : first.Valid) (hnext : Advances first next) : next.Valid := by
  cases hnext with
  | approach hnext => exact ⟨h.sound.follows hnext, nofun, nofun⟩
  | settle hoptimal hvalue =>
      refine ⟨h.sound, fun rest hphase => ?_, nofun⟩
      cases hphase
      exact (settled_of_objectiveValue_nonneg h.sound hvalue).exchanging h.sound
  | exchange row rest =>
      have hexchanged := (h.exchanging _ rfl).evictRow
      refine ⟨hexchanged.sound, fun rest' hphase => ?_, nofun⟩
      cases hphase
      exact hexchanged
  | enter => exact ⟨h.sound, nofun, fun _ => (h.exchanging [] rfl).cleared⟩
  | ascend hnext =>
      exact ⟨h.sound.follows hnext, nofun, fun _ => basic_lt_of_run (h.cleared rfl) (.single hnext)⟩

/-- No step loses in the running objective. -/
theorem State.Valid.objectiveValue_le (h : first.Valid) (hnext : Advances first next) :
    first.tableau.objectiveValue first.costs ≤ next.tableau.objectiveValue first.costs := by
  cases hnext with
  | approach hnext => exact h.sound.objectiveValue_le (.single hnext)
  | settle hoptimal hvalue => exact le_rfl
  | exchange row rest => exact (objectiveValue_evictRow h.sound (h.exchanging _ rfl).settled _).ge
  | enter => exact le_rfl
  | ascend hnext => exact h.sound.objectiveValue_le (.single hnext)

/-! ### Whole runs -/

theorem Reaches.valid (h : Reaches state) : state.Valid := by
  induction h with
  | refl => exact valid_initial
  | tail _ hnext ih => exact ih.advances hnext

section Runs

variable {tableau final : Tableau ℚ inequalities.length (width linear.length inequalities)}

theorem reaches_build (h : Inequality.artificials inequalities ≠ 0) :
    Reaches (⟨.feasibility, build linear.length inequalities⟩ : State linear inequalities) := by
  have hinitial : initial linear inequalities = ⟨.feasibility, build linear.length inequalities⟩ := by
    rw [initial, if_neg h]
  exact hinitial ▸ ReflTransGen.refl

theorem Reaches.approach (h : Reaches ⟨.feasibility, tableau⟩)
    (hrun : ReflTransGen (Follows (artificialCosts linear.length inequalities) (width linear.length inequalities))
      tableau final) :
    Reaches (⟨.feasibility, final⟩ : State linear inequalities) :=
  h.trans (hrun.lift (State.mk .feasibility) fun _ _ => .approach)

theorem Reaches.ascend (h : Reaches ⟨.optimality, tableau⟩)
    (hrun : ReflTransGen (Follows (phaseTwoCosts _ linear) (ordinary linear.length inequalities)) tableau final) :
    Reaches (⟨.optimality, final⟩ : State linear inequalities) :=
  h.trans (hrun.lift (State.mk .optimality) fun _ _ => .ascend)

/-- The exchange goes through the rows in order. -/
theorem Reaches.exchange {places : List (Fin inequalities.length)} (h : Reaches ⟨.exchange places, tableau⟩) :
    Reaches (⟨.optimality, places.foldl (evictRow (ordinary linear.length inequalities) 0) tableau⟩ :
      State linear inequalities) := by
  induction places generalizing tableau with
  | nil => exact h.tail .enter
  | cons place places ih => exact ih (h.tail (.exchange place places))

/-- Behind an optimum of phase one that is not below zero phase two begins, once all rows are through. -/
theorem Reaches.evictArtificials (h : Reaches ⟨.feasibility, tableau⟩)
    (hoptimal : tableau.step (artificialCosts linear.length inequalities) (width linear.length inequalities) 0 =
      .optimal)
    (hvalue : 0 ≤ tableau.objectiveValue (artificialCosts linear.length inequalities)) :
    Reaches (⟨.optimality, tableau.evictArtificials (ordinary linear.length inequalities) 0⟩ :
      State linear inequalities) :=
  Reaches.exchange (h.tail (.settle hoptimal hvalue))

variable {budget : Nat}

/-- Phase one ends at a tableau that is reached. -/
theorem reaches_of_phaseOne (constant : ℚ)
    {found : Option (Tableau ℚ inequalities.length (width linear.length inequalities))}
    (h : phaseOne ⟨0, budget⟩ linear.length inequalities = .ok found) :
    match found with
    | some start => Reaches (⟨.optimality, start⟩ : State linear inequalities)
    | none => ∃ state : State linear inequalities, Reaches state ∧ Concludes constant state .infeasible := by
  rw [phaseOne] at h
  split_ifs at h with hartificials
  · cases h
    have hinitial : initial linear inequalities = ⟨.optimality, build linear.length inequalities⟩ := by
      rw [initial, if_pos hartificials]
    have hreached : Reaches (⟨.optimality, build linear.length inequalities⟩ : State linear inequalities) :=
      hinitial ▸ ReflTransGen.refl
    exact hreached
  · obtain ⟨final, hrun, hfinal⟩ := bind_eq_ok.mp h
    obtain ⟨hpivots, hoptimal⟩ := run_of_optimize hrun
    have hreached := (reaches_build hartificials).approach hpivots
    split_ifs at hfinal with hvalue
    · cases hfinal
      exact ⟨_, hreached, .infeasible hoptimal (neg_zero (G := ℚ) ▸ hvalue)⟩
    · cases hfinal
      exact hreached.evictArtificials hoptimal (by linarith)

/-- Every answer is read off a tableau that is reached. -/
theorem exists_reaches_of_solve {constant : ℚ} {outcome : Outcome ℚ}
    (h : solve ⟨0, budget⟩ constant linear inequalities = .ok outcome) :
    ∃ state : State linear inequalities, Reaches state ∧ Concludes constant state outcome := by
  obtain ⟨found, hfound, h⟩ := bind_eq_ok.mp h
  have hphase := reaches_of_phaseOne constant hfound
  cases found with
  | none =>
      cases h
      exact hphase
  | some start =>
      obtain ⟨final, hrun, hfinal⟩ := bind_eq_ok.mp h
      cases hfinal
      obtain ⟨hpivots, hoptimal⟩ := run_of_optimize hrun
      exact ⟨_, hphase.ascend hpivots, .optimal hoptimal⟩

end Runs

/-- Every optimum and every finding of infeasibility is read off a tableau that is reached. -/
theorem exists_reaches_of_maximize {budget : Nat} {objective : Affine ℚ} {constraints : List (Constraint ℚ)}
    {outcome : Outcome ℚ} (h : maximize ⟨0, budget⟩ objective constraints = .ok outcome) :
    ∃ state : State objective.linear (Inequality.ofProgram objective.linear.length constraints),
      Reaches state ∧ Concludes objective.constant state outcome := by
  obtain ⟨coefficients⟩ := objective
  cases coefficients with
  | nil => cases h
  | cons constant linear =>
      simp only [maximize] at h
      split at h
      · cases h
      · exact exists_reaches_of_solve h

/-- The invariant of the method without slack. At every tableau that is reached the basic columns are unit vectors, no
bound is negative and the solutions are those of the first tableau; no step loses in the objective of the running phase.
Where the exchange meets an artificial column, it finds an ordinary one to take the place, so none is basic after an
optimum of phase one at zero. The tableaus reached are those that the rounds of both phases start from, and every answer
is read off one of them. -/
theorem reaches_invariant (objective : Affine ℚ) (constraints : List (Constraint ℚ)) :
    let dim := objective.linear.length
    let inequalities := Inequality.ofProgram dim constraints
    (∀ state : State objective.linear inequalities, Reaches state →
      state.tableau.Canonical ∧ state.tableau.Nonnegative ∧
      (∀ values, state.tableau.Solves values ↔ (build dim inequalities).Solves values) ∧
      ∀ next, Advances state next →
        state.tableau.objectiveValue state.costs ≤ next.tableau.objectiveValue state.costs) ∧
    (∀ tableau row rest, Reaches (⟨.exchange (row :: rest), tableau⟩ : State objective.linear inequalities) →
      ordinary dim inequalities ≤ (tableau.basic row).val →
        ∃ column, tableau.replacement? (ordinary dim inequalities) 0 row = some column) ∧
    (∀ tableau, Reaches (⟨.feasibility, tableau⟩ : State objective.linear inequalities) →
      tableau.step (artificialCosts dim inequalities) (width dim inequalities) 0 = .optimal →
      tableau.objectiveValue (artificialCosts dim inequalities) = 0 →
        (tableau.evictArtificials (ordinary dim inequalities) 0).Cleared) ∧
    ∀ budget,
      (Inequality.artificials inequalities ≠ 0 →
        ∀ tableau ∈ rounds (artificialCosts dim inequalities) (width dim inequalities) 0 budget
          (build dim inequalities), Reaches (⟨.feasibility, tableau⟩ : State objective.linear inequalities)) ∧
      (∀ start, phaseOne ⟨0, budget⟩ dim inequalities = .ok (some start) →
        ∀ tableau ∈ rounds (phaseTwoCosts _ objective.linear) (ordinary dim inequalities) 0 budget start,
          Reaches (⟨.optimality, tableau⟩ : State objective.linear inequalities)) ∧
      ∀ outcome, maximize ⟨0, budget⟩ objective constraints = .ok outcome →
        ∃ state : State objective.linear inequalities, Reaches state ∧ Concludes objective.constant state outcome := by
  intro dim inequalities
  refine ⟨fun state hreached => ?_, fun tableau row rest hreached hbasic => ?_,
    fun tableau hreached hoptimal hvalue => ?_, fun budget => ⟨fun hartificials tableau hmem => ?_,
    fun start hstart tableau hmem => ?_, fun outcome houtcome => exists_reaches_of_maximize houtcome⟩⟩
  · have hvalid := hreached.valid
    exact ⟨hvalid.sound.canonical, hvalid.sound.nonnegative, hvalid.sound.solves_iff,
      fun next hnext => hvalid.objectiveValue_le hnext⟩
  · exact exists_replacement hreached.valid.sound hbasic
  · exact (hreached.evictArtificials hoptimal hvalue.ge).valid.cleared rfl
  · exact (reaches_build hartificials).approach (run_of_mem_rounds hmem)
  · have hreached := reaches_of_phaseOne objective.constant hstart
    exact hreached.ascend (run_of_mem_rounds hmem)

/-- The right end of the box is the one feasible point. The artificial column is still basic at the optimum of phase
one, at zero, and the entry that it is exchanged at is negative. -/
theorem reaches_invariant_corner :
    let inequalities : List (Inequality ℚ) := Inequality.ofProgram 1 [⟨⟨[-1, 1]⟩, .geq⟩]
    ∃ (tableau : Tableau ℚ inequalities.length (width 1 inequalities)) (row : Fin inequalities.length)
      (column : Fin (width 1 inequalities)),
      Reaches (⟨.exchange (List.finRange _), tableau⟩ : State [1] inequalities) ∧
      tableau.Canonical ∧ tableau.Nonnegative ∧
      (build 1 inequalities).objectiveValue (artificialCosts 1 inequalities) ≤
        tableau.objectiveValue (artificialCosts 1 inequalities) ∧
      ordinary 1 inequalities ≤ (tableau.basic row).val ∧
      tableau.replacement? (ordinary 1 inequalities) 0 row = some column ∧ tableau.entry row column = -1 ∧
      (tableau.evictArtificials (ordinary 1 inequalities) 0).Cleared ∧
      ∃ state : State [1] inequalities, Reaches state ∧ Concludes 0 state (.optimal 1) := by
  intro inequalities
  obtain ⟨hkeeps, hreplaces, hclears, hrounds⟩ := reaches_invariant ⟨[0, 1]⟩ [⟨⟨[-1, 1]⟩, .geq⟩]
  let first : Fin inequalities.length := ⟨0, by decide⟩
  let box : Fin inequalities.length := ⟨1, by decide⟩
  let input : Fin (width 1 inequalities) := ⟨0, by decide +kernel⟩
  let tableau := (build 1 inequalities).pivot box input
  have hnext : Follows (artificialCosts 1 inequalities) (width 1 inequalities) (build 1 inequalities) tableau := by
    have hentering : (build 1 inequalities).entering? (artificialCosts 1 inequalities) (width 1 inequalities) 0 =
        some input := by decide +kernel
    have hleaving : (build 1 inequalities).leaving? 0 input = some box := by decide +kernel
    rw [Follows, step, hentering]
    simp only [hleaving, tableau]
  have hoptimal : tableau.step (artificialCosts 1 inequalities) (width 1 inequalities) 0 = .optimal := by
    have hentering : tableau.entering? (artificialCosts 1 inequalities) (width 1 inequalities) 0 = none := by
      decide +kernel
    rw [step, hentering]
  have hvalue : tableau.objectiveValue (artificialCosts 1 inequalities) = 0 := by decide +kernel
  have hbuild : Reaches (⟨.feasibility, build 1 inequalities⟩ : State [1] inequalities) :=
    reaches_build (by decide +kernel)
  have hfeasibility : Reaches (⟨.feasibility, tableau⟩ : State [1] inequalities) := hbuild.tail (.approach hnext)
  have hvalue_le := (hkeeps _ hbuild).2.2.2 _ (.approach hnext)
  have hexchange : Reaches (⟨.exchange [first, box], tableau⟩ : State [1] inequalities) :=
    hfeasibility.tail (.settle hoptimal hvalue.ge)
  have hbasic : ordinary 1 inequalities ≤ (tableau.basic first).val := by decide +kernel
  obtain ⟨column, hcolumn⟩ := hreplaces tableau first [box] hexchange hbasic
  have hentry : ∀ place ∈ tableau.replacement? (ordinary 1 inequalities) 0 first, tableau.entry first place = -1 := by
    decide +kernel
  obtain ⟨hcanonical, hnonnegative, -, -⟩ := hkeeps _ hexchange
  have hcleared := hclears tableau hfeasibility hoptimal hvalue
  exact ⟨tableau, first, column, hexchange, hcanonical, hnonnegative, hvalue_le, hbasic, hcolumn,
    hentry column hcolumn, hcleared, (hrounds 10).2.2 (.optimal 1) (by decide +kernel)⟩

end Simplex

end ReluLogic
