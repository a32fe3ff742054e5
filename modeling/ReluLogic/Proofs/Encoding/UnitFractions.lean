import ReluLogic.Proofs.Encoding.Refusal

/-!
Unit fractions in runs of an encoder. An encoder serves operations of all kinds in any order, some of which fail, and
nothing is asked of the formulas that are multiplied or of the number of coefficients in terms of the inputs. Whatever
the order, the formulas returned so far force every constant to its unit fraction and its chain to the doubled
multiples, so that multiples of it are exact. For this the formulas of an operation need not be satisfiable; it is
enough that they give what is remembered its meaning where they hold, and that a failure remembers nothing.
-/

namespace ReluLogic

namespace Encoding

open Allocator (Forces Encodes)

variable {before after : Allocator} {n index constant numerator denominator : Nat} {term : Formula} {modsat : Modsat}

/-! ### Gadgets -/

theorem forces_zeroFormula (h : before.Scoped) {phi : Formula}
    (hrun : (liftM zeroFormula : Encoding Formula).Returns before phi after) : Forces before after [] := by
  obtain ⟨_, _, hzero, hstep, -⟩ := exists_zeroFormula_eq h
  obtain ⟨rfl, rfl⟩ := hrun.unique (returns_lift.mpr hzero)
  exact hstep.forces

/-- A multiple remembers nothing but the zero variable, whatever is multiplied. -/
theorem forces_multiple (h : before.Scoped)
    (hrun : (liftM (multiple n term) : Encoding Modsat).Returns before modsat after) : Forces before after [] := by
  rw [multiple] at hrun
  split_ifs at hrun
  · obtain ⟨_, _, hzero, hstep, -⟩ := exists_zeroFormula_eq h
    have hreturns := returns_lift.mp hrun
    rw [StateT.run_bind, hzero] at hreturns
    cases hreturns
    exact hstep.forces
  · cases returns_lift.mp hrun
    exact .refl h
  · cases returns_lift.mp hrun
    exact (Allocator.Step.advance h (Nat.le_add_right before.counter _)).forces

theorem forces_chainMultiple (h : before.Scoped) {phi : Formula}
    (hrun : (liftM (chainMultiple n index) : Encoding Formula).Returns before phi after) : Forces before after [] := by
  rw [chainMultiple] at hrun
  split_ifs at hrun
  · exact forces_zeroFormula h hrun
  · cases returns_lift.mp hrun
    exact .refl h
  · cases returns_lift.mp hrun
    exact .refl h

/-- There is no constant for zero. -/
theorem run_constant_zero (h : before.Scoped) :
    (Encoding.constant 0).run.run before = (.error (.encoding .zeroDenominatorConstant), before) := by
  rw [Encoding.constant, run_get_bind]
  rcases hknown : before.constants.get? 0 with _ | index
  · rfl
  · exact absurd (h.constants hknown).1 (lt_irrefl 0)

theorem forces_constant (h : before.Scoped) {result : Nat × List Formula}
    (hrun : (Encoding.constant denominator).Returns before result after) : Forces before after result.2 := by
  rcases Nat.eq_zero_or_pos denominator with rfl | hpos
  · cases hrun.symm.trans (run_constant_zero h)
  · obtain ⟨index, defining, last, hreturns, hstep, -⟩ := exists_constant_eq h hpos
    obtain ⟨rfl, rfl⟩ := hrun.unique hreturns
    exact hstep.forces

/-- A multiple of a constant that is returned is exact. -/
theorem encodes_multiplyConstant (h : before.Scoped) (hconstant : before.constants.get? denominator = some constant)
    (hrun : (multiplyConstant numerator denominator).Returns before modsat after) :
    Encodes before after modsat fun _ => min (numerator / denominator) 1 := by
  have hreach : denominator ≤ 2 ∨ numerator.log2 ≤ (denominator - 1).log2 ∨ numerator = denominator := by
    have hread := (returns_multiplyConstant hconstant).mp hrun
    split_ifs at hread with htwo hzero hlog hwhole
    · exact Or.inl htwo
    · subst hzero
      exact Or.inr (Or.inl (Nat.zero_le _))
    · exact Or.inr (Or.inl hlog)
    · exact Or.inr (Or.inr hwhole)
    · cases hread
  obtain ⟨_, _, hreturns, hencodes⟩ := exists_multiplyConstant_eq h hconstant hreach
  obtain ⟨rfl, rfl⟩ := hrun.unique hreturns
  exact hencodes

theorem forces_multiplyConstant (h : before.Scoped)
    (hrun : (multiplyConstant numerator denominator).Returns before modsat after) :
    Forces before after modsat.defining := by
  obtain ⟨constant, hconstant⟩ := exists_get?_of_multiplyConstant hrun
  exact (encodes_multiplyConstant h hconstant hrun).forces

/-! ### Parts of a piece -/

variable {scaled : ScaledTerm} {scaleds : List ScaledTerm} {group : Modsat}

/-- The term of an input remembers nothing but the zero variable, and passes the definition of its constant on. -/
theorem forces_inputTerm (h : before.Scoped) {definition : List Formula} {part : Part}
    (hrun : (inputTerm scaled constant definition).Returns before part after) :
    Forces before after [] ∧ definition ⊆ part.defining := by
  obtain ⟨-, large, middle, value, whole, hlarge, hreading, rfl⟩ := returns_inputTerm.mp hrun
  have hfirst := (Allocator.Step.advance h (Nat.le_succ before.counter)).forces
  have hmiddle := hfirst.trans (forces_multiple hfirst.scope hlarge)
  refine ⟨?_, List.Subset.trans (List.subset_append_left _ _) (List.subset_append_left _ _)⟩
  cases hreading with
  | equal => exact hmiddle
  | below _ hread => exact hmiddle.trans (forces_chainMultiple hmiddle.scope hread)
  | above _ hread => exact hmiddle.trans (forces_chainMultiple hmiddle.scope hread)

theorem forces_termPart (h : before.Scoped) {part : Part} (hrun : (termPart scaled).Returns before part after) :
    Forces before after part.defining := by
  obtain ⟨index, definition, middle, hconstant, hrest⟩ := returns_termPart.mp hrun
  have hmiddle := forces_constant h hconstant
  rcases hrest with ⟨-, product, hproduct, rfl⟩ | ⟨-, hterm⟩
  · exact hmiddle.trans (forces_multiplyConstant hmiddle.scope hproduct)
  · obtain ⟨hforces, hsub⟩ := forces_inputTerm hmiddle.scope hterm
    refine (hmiddle.trans hforces).mono ?_
    rwa [List.append_nil]

/-- A term adds to the definitions of its group what it needs. -/
theorem forces_addTerm (h : before.Scoped) (hrun : (addTerm group scaled).Returns before modsat after) :
    ∃ more, modsat.defining = group.defining ++ more ∧ Forces before after more := by
  rcases returns_addTerm.mp hrun with ⟨-, rfl, rfl⟩ | ⟨-, part, hpart, rfl⟩
  · exact ⟨[], (List.append_nil _).symm, .refl h⟩
  · exact ⟨part.defining, rfl, forces_termPart h hpart⟩

theorem forces_foldlM_addTerm (scaleds : List ScaledTerm) : ∀ {before : Allocator} {group : Modsat}, before.Scoped →
    (scaleds.foldlM addTerm group).Returns before modsat after →
      ∃ more, modsat.defining = group.defining ++ more ∧ Forces before after more := by
  -- the group carries its definitions along, so the induction is over the states and the groups as well
  induction scaleds with
  | nil =>
      intro before group h hrun
      cases hrun
      exact ⟨[], (List.append_nil _).symm, .refl h⟩
  | cons scaled scaleds ih =>
      intro before group h hrun
      rw [List.foldlM_cons] at hrun
      obtain ⟨next, middle, hterm, hrest⟩ := returns_bind.mp hrun
      obtain ⟨first, hfirst, hforces⟩ := forces_addTerm h hterm
      obtain ⟨rest, hsecond, hforces'⟩ := ih hforces.scope hrest
      refine ⟨first ++ rest, ?_, hforces.trans hforces'⟩
      rw [hsecond, hfirst, List.append_assoc]

theorem forces_group (h : before.Scoped) (hrun : (Encoding.group scaleds).Returns before modsat after) :
    Forces before after modsat.defining := by
  rcases returns_group.mp hrun with ⟨-, phi, hphi, rfl⟩ | ⟨-, hfold⟩
  · exact forces_zeroFormula h hphi
  · obtain ⟨more, hmore, hforces⟩ := forces_foldlM_addTerm scaleds h hfold
    rwa [hmore]

theorem forces_ofTerms (h : before.Scoped) {scale : Nat} (hrun : (ofTerms scale scaleds).Returns before modsat after) :
    Forces before after modsat.defining := by
  obtain ⟨positive, first, negative, second, large, hpositive, hnegative, hlarge, rfl⟩ := returns_ofTerms.mp hrun
  have hfirst := forces_group h hpositive
  have hsecond := hfirst.trans (forces_group hfirst.scope hnegative)
  exact (hsecond.trans (forces_multiple hsecond.scope hlarge)).mono
    (List.append_subset.mpr ⟨List.subset_append_left _ _, List.nil_subset _⟩)

variable {coefficients : List Fraction}

theorem forces_encode (h : before.Scoped) (hrun : (encode coefficients).Returns before modsat after) :
    Forces before after modsat.defining := by
  rcases returns_encode.mp hrun with ⟨-, phi, hphi, rfl⟩ | ⟨-, scale, terms, -, hterms⟩
  · exact forces_zeroFormula h hphi
  · exact forces_ofTerms h hterms

/-! ### Failures -/

section Failures

variable {error : Error}

theorem unchanged_of_constant_error (h : before.Scoped)
    (herror : (Encoding.constant denominator).run.run before = (.error error, after)) : after = before := by
  rcases Nat.eq_zero_or_pos denominator with rfl | hpos
  · cases (run_constant_zero h).symm.trans herror
    rfl
  · obtain ⟨_, _, _, hreturns, -⟩ := exists_constant_eq h hpos
    cases hreturns.symm.trans herror

theorem unchanged_of_multiplyConstant_error
    (herror : (multiplyConstant numerator denominator).run.run before = (.error error, after)) : after = before := by
  rw [multiplyConstant, run_get_bind] at herror
  rcases hconstant : before.constants.get? denominator with _ | constant <;> rw [hconstant] at herror
  · cases herror
    rfl
  · change (if denominator ≤ 2 then _ else _ : Encoding Modsat).run.run before = _ at herror
    split_ifs at herror
    · exact absurd herror (succeeds_lift _).ne_error
    · exact absurd herror ((succeeds_lift _).bind fun _ => succeeds_pure _).ne_error
    · cases herror
    · exact absurd herror ((succeeds_lift _).bind fun _ => succeeds_pure _).ne_error
    · cases herror
      rfl

/-- Coefficients are refused before anything is handed out, if there is a variable for each of them. -/
theorem unchanged_of_encode_error (hlength : coefficients.length ≤ 2 ^ 32)
    (herror : (encode coefficients).run.run before = (.error error, after)) : after = before := by
  rw [encode] at herror
  split_ifs at herror with hzero
  · exact absurd herror ((succeeds_lift _).bind fun _ => succeeds_pure _).ne_error
  · rcases hprepare : prepare coefficients with fault | ⟨scale, terms⟩ <;> rw [hprepare] at herror
    · cases herror
      rfl
    · -- a denominator of zero would have been refused; negative ones are not
      have hdens : ∀ coefficient ∈ coefficients, coefficient.den ≠ 0 := by
        intro coefficient hmem hden
        exact not_refuses_of_prepare hprepare _ (.zeroDenominator hmem hden)
      have hprepared := prepare_eq_ok hdens hzero hlength le_rfl hprepare
      exact absurd herror (succeeds_ofTerms scale hprepared.fits).ne_error

end Failures

/-! ### Runs -/

/-- The multiples on the chain of a constant stay below one. -/
theorem pow_div_le_one {step : Nat} (hthree : 3 ≤ denominator) (hstep : step ≤ (denominator - 1).log2) :
    (2 ^ step / denominator : ℚ) ≤ 1 := by
  have hpow : 2 ^ step ≤ denominator - 1 := (Nat.le_log2 (by omega)).mp hstep
  rw [div_le_one (by exact_mod_cast (show 0 < denominator by omega))]
  exact_mod_cast hpow.trans (Nat.sub_le _ _)

/-- An operation of an encoder. Constants are asked for, not defined anew. -/
inductive Task where
  | zeroFormula
  | multiple (n : Nat) (term : Formula)
  | constant (denominator : Nat)
  | multiplyConstant (numerator denominator : Nat)
  | chainMultiple (n index : Nat)
  | encode (coefficients : List Fraction)
  deriving Repr, DecidableEq

namespace Task

/-- The computation of a task, with the defining formulas that it returns. -/
def perform : Task → Encoding (List Formula)
  | .zeroFormula => do
    let _ ← Encoding.zeroFormula
    pure []
  | .multiple n term => do pure (← Encoding.multiple n term).defining
  | .constant denominator => do pure (← Encoding.constant denominator).2
  | .multiplyConstant numerator denominator => do pure (← Encoding.multiplyConstant numerator denominator).defining
  | .chainMultiple n index => do
    let _ ← Encoding.chainMultiple n index
    pure []
  | .encode coefficients => do pure (← Encoding.encode coefficients).defining

/-- A piece has no more coefficients than a constant term and one for each variable that there is. -/
def Proper : Task → Prop
  | .encode coefficients => coefficients.length ≤ 2 ^ 32
  | _ => True

end Task

/-- The defining formulas of an outcome; a task that failed has returned none. -/
def returned : Except Error (List Formula) → List Formula
  | .ok defining => defining
  | .error _ => []

/-- The defining formulas that tasks performed in order return, with the last state. -/
def record : List Task → Allocator → List Formula × Allocator
  | [], before => ([], before)
  | task :: rest, before =>
    let (outcome, middle) := task.perform.run.run before
    let (defining, after) := record rest middle
    (returned outcome ++ defining, after)

variable {task : Task} {tasks : List Task} {defining : List Formula}

/-- What a task's computation forces it also records, and a failure leaves nothing behind. -/
theorem forces_returned {β : Type} {computation : Encoding β} {defining : β → List Formula} (h : before.Scoped)
    (hforces : ∀ result after, computation.Returns before result after → Forces before after (defining result))
    (hfails : ∀ error after, computation.run.run before = (.error error, after) → after = before)
    {outcome : Except Error (List Formula)}
    (hrun : (computation >>= fun result => pure (defining result)).run.run before = (outcome, after)) :
    Forces before after (returned outcome) := by
  rw [run_bind] at hrun
  rcases hcomputation : computation.run.run before with ⟨error | result, middle⟩ <;> rw [hcomputation] at hrun
  · cases hrun
    rw [hfails error _ hcomputation]
    exact .refl h
  · cases hrun
    exact hforces result _ hcomputation

theorem forces_perform (h : before.Scoped) (hproper : task.Proper) {outcome : Except Error (List Formula)}
    (hrun : task.perform.run.run before = (outcome, after)) : Forces before after (returned outcome) := by
  have hlift : ∀ {β : Type} (action : StateM Allocator β) (error : Error) (after : Allocator),
      (liftM action : Encoding β).run.run before = (.error error, after) → after = before :=
    fun action _ _ herror => absurd herror (succeeds_lift action).ne_error
  cases task with
  | zeroFormula => exact forces_returned h (fun _ _ => forces_zeroFormula h) (hlift _) hrun
  | multiple n term =>
      exact forces_returned h (fun _ _ hreturns => (forces_multiple h hreturns).mono (List.nil_subset _)) (hlift _) hrun
  | constant denominator =>
      exact forces_returned h (fun _ _ => forces_constant h) (fun _ _ => unchanged_of_constant_error h) hrun
  | multiplyConstant numerator denominator =>
      exact forces_returned h (fun _ _ => forces_multiplyConstant h) (fun _ _ => unchanged_of_multiplyConstant_error)
        hrun
  | chainMultiple n index => exact forces_returned h (fun _ _ => forces_chainMultiple h) (hlift _) hrun
  | encode coefficients =>
      exact forces_returned h (fun _ _ => forces_encode h) (fun _ _ => unchanged_of_encode_error hproper) hrun

/-- The formulas of a run force the meaning of what is remembered. -/
theorem forces_record (tasks : List Task) : ∀ {before : Allocator} {defining : List Formula}, before.Scoped →
    (∀ task ∈ tasks, task.Proper) → record tasks before = (defining, after) → Forces before after defining := by
  induction tasks with
  | nil =>
      intro before defining h _ hrun
      cases hrun
      exact .refl h
  | cons task tasks ih =>
      intro before defining h hproper hrun
      obtain ⟨htask, hrest⟩ := List.forall_mem_cons.mp hproper
      rcases hperform : task.perform.run.run before with ⟨outcome, middle⟩
      rcases hrecord : record tasks middle with ⟨more, last⟩
      rw [record, hperform] at hrun
      simp only [hrecord] at hrun
      cases hrun
      have hfirst := forces_perform h htask hperform
      exact hfirst.trans (ih hfirst.scope hrest hrecord)

/-- Unit fractions are exact in every run. After tasks performed in any order from a new allocator, whether or not they
succeed, let a constant be remembered for a denominator. Every valuation that satisfies the formulas returned so far
gives the constant its unit fraction, and from three on the variables behind it the doubled multiples of it. The
multiples up to the whole can be had, and any multiple that can be had is exact where its own formulas hold as well. -/
theorem record_fixes_fractions (dim : Nat) (hproper : ∀ task ∈ tasks, task.Proper)
    (hrun : record tasks (.ofDim dim) = (defining, after)) (hmax : after.counter ≤ variableMax)
    (hconstant : after.constants.get? denominator = some constant) :
    1 ≤ denominator ∧
    (∀ valuation, UnitValued valuation → (∀ formula ∈ defining, formula.evaluate valuation = .ok (some 1)) →
      valuation constant = 1 / denominator ∧
      (3 ≤ denominator → ∀ step ≤ (denominator - 1).log2, valuation (constant + 1 + step) = 2 ^ step / denominator)) ∧
    ∀ numerator,
      (numerator ≤ denominator → ∃ modsat last,
        (multiplyConstant numerator denominator).run.run after = (.ok modsat, last)) ∧
      ∀ modsat last, (multiplyConstant numerator denominator).run.run after = (.ok modsat, last) →
        last.counter ≤ variableMax → ∀ valuation, UnitValued valuation →
          (∀ formula ∈ defining ++ modsat.defining, formula.evaluate valuation = .ok (some 1)) →
            modsat.phi.evaluate valuation = .ok (some (min 1 (numerator / denominator))) := by
  have hforces := forces_record tasks (Allocator.scoped_ofDim dim) hproper hrun
  have hmeaning : ∀ {valuation}, UnitValued valuation → Formula.Satisfies valuation defining →
      after.Meaning valuation :=
    fun hunit hdefining => hforces.sound hmax hunit (Allocator.meaning_ofDim dim _) hdefining
  refine ⟨(hforces.scope.constants hconstant).1, fun valuation hunit hdefining => ?_, fun numerator => ⟨?_, ?_⟩⟩
  · obtain ⟨hvalue, hchain⟩ := (hmeaning hunit hdefining).constants hconstant
    refine ⟨hvalue, fun hthree step hstep => ?_⟩
    rw [hchain hthree step hstep, mul_one_div, min_eq_left (pow_div_le_one hthree hstep)]
  · exact fun hle => exists_multiplyConstant hconstant hle
  · intro modsat last hreturns hlast valuation hunit hsatisfies
    obtain ⟨hdefining, hown⟩ := Formula.satisfies_append.mp hsatisfies
    rw [min_comm]
    have hencodes := encodes_multiplyConstant hforces.scope hconstant hreturns
    exact hencodes.denotes hlast hunit (hmeaning hunit hdefining) hown

/-- Tasks over one input. A quarter is asked for too early, five quarters are too much, and the piece
`1/4 + x₁ / 8` is given with negative parts. -/
def quarters : List Task :=
  [.multiplyConstant 1 4, .constant 4, .multiplyConstant 4 4, .multiplyConstant 5 4, .encode [⟨-1, -4⟩, ⟨1, 8⟩]]

/-- The formulas of `quarters` can hold. They fix an eighth at the variable `6` with its chain up to one half at `9`,
and four quarters, asked for again, are one with nothing more to define. -/
theorem record_fixes_fractions_quarters :
    (∃ valuation, UnitValued valuation ∧
      ∀ formula ∈ (record quarters (.ofDim 1)).1, formula.evaluate valuation = .ok (some 1)) ∧
    (∃ last, (multiplyConstant 4 4).run.run (record quarters (.ofDim 1)).2 = (.ok ⟨.atom 5, []⟩, last)) ∧
    ∀ valuation, UnitValued valuation →
      (∀ formula ∈ (record quarters (.ofDim 1)).1, formula.evaluate valuation = .ok (some 1)) →
        valuation 6 = 1 / 8 ∧ valuation 9 = 1 / 2 ∧ (Formula.atom 5).evaluate valuation = .ok (some 1) := by
  have hproper : ∀ task ∈ quarters, task.Proper := by simp [quarters, Task.Proper]
  have hmax : (record quarters (.ofDim 1)).2.counter ≤ variableMax := by decide +kernel
  have hwhole : @Eq (Except Error Modsat × Allocator) ((multiplyConstant 4 4).run.run (record quarters (.ofDim 1)).2)
      (.ok ⟨.atom 5, []⟩, (record quarters (.ofDim 1)).2) := by decide +kernel
  have heighthConstant : (record quarters (.ofDim 1)).2.constants.get? 8 = some 6 := by decide +kernel
  have hquarterConstant : (record quarters (.ofDim 1)).2.constants.get? 4 = some 2 := by decide +kernel
  obtain ⟨-, heighth, -⟩ := record_fixes_fractions 1 hproper Prod.mk.eta.symm hmax heighthConstant
  obtain ⟨-, -, hquarters⟩ := record_fixes_fractions 1 hproper Prod.mk.eta.symm hmax hquarterConstant
  refine ⟨⟨([0, 1 / 2, 1 / 4, 1 / 4, 1 / 2, 1, 1 / 8, 1 / 8, 1 / 4, 1 / 2, 1 / 16, 1 / 16, 1 / 8, 1 / 4, 1 / 2].getD
    · 0), unitValued_getD (by decide +kernel), by decide +kernel⟩, ⟨_, hwhole⟩, fun valuation hunit hdefining => ?_⟩
  obtain ⟨hconstant, hchain⟩ := heighth valuation hunit hdefining
  refine ⟨?_, ?_, ?_⟩
  · exact hconstant.trans (by norm_num)
  · exact (hchain (by decide) 2 (by decide)).trans (by norm_num)
  · have hdegree := (hquarters 4).2 _ _ hwhole hmax valuation hunit (by rwa [List.append_nil])
    norm_num at hdegree
    exact hdegree

end Encoding

end ReluLogic
