import ReluLogic.Encoding.Constant
import ReluLogic.Proofs.Encoding.Doubling

/-!
States of allocation and what a step between them means. The constants and multiples that an allocator
remembers have fixed values under every valuation that satisfies the formulas they were defined by. A step hands
out variables above the counter: the formulas it returns keep this meaning, and any valuation that has it can be
changed above the counter so that they hold.
-/

namespace ReluLogic

namespace Memo

theorem find?_insertEntry (denominator index other : Nat) (entries : List (Nat × Nat)) :
    ((insertEntry denominator index entries).find? (·.1 == other)).map (·.2) =
      if other = denominator then some index else (entries.find? (·.1 == other)).map (·.2) := by
  have hcons : ∀ rest : List (Nat × Nat), (((denominator, index) :: rest).find? (·.1 == other)).map (·.2) =
      if other = denominator then some index else (rest.find? (·.1 == other)).map (·.2) := by
    intro rest
    rw [List.find?_cons]
    split_ifs with hother
    · rw [hother, beq_self_eq_true]
      rfl
    · rw [beq_false_of_ne (Ne.symm hother)]
  induction entries with
  | nil => exact hcons []
  | cons entry entries ih =>
      rw [insertEntry]
      by_cases hless : denominator < entry.1
      · rw [if_pos hless]
        exact hcons (entry :: entries)
      · rw [if_neg hless]
        by_cases hequal : denominator = entry.1
        · rw [if_pos hequal, hcons]
          split_ifs with hother
          · rfl
          · rw [List.find?_cons, beq_false_of_ne fun heq => hother (heq.symm.trans hequal.symm)]
        · rw [if_neg hequal, List.find?_cons, List.find?_cons]
          rcases hentry : entry.1 == other with _ | _
          · exact ih
          · exact (if_neg fun heq => hequal (heq.symm.trans (beq_iff_eq.mp hentry).symm)).symm

/-- A memo gives back what was remembered last for a denominator. -/
theorem get?_insert (memo : Memo) (denominator index other : Nat) :
    (memo.insert denominator index).get? other =
      if other = denominator then some index else memo.get? other :=
  find?_insertEntry denominator index other memo.entries

end Memo

namespace Encoding

/-! ### Outcomes -/

variable {β γ : Type}

/-- The computation succeeds and leads from one state of allocation to another. -/
def Returns (computation : Encoding β) (before : Allocator) (result : β) (after : Allocator) : Prop :=
  computation.run.run before = (.ok result, after)

/-- Whatever the outcome, the computation leaves the state as it is or moves the counter forward. -/
def Advances (computation : Encoding β) : Prop :=
  ∀ before : Allocator, (computation.run.run before).2 = before ∨
    before.counter < (computation.run.run before).2.counter

variable {computation : Encoding β} {next : β → Encoding γ} {action : StateM Allocator β}
  {before after : Allocator} {result other : β} {final : γ}

theorem run_bind (computation : Encoding β) (next : β → Encoding γ) (before : Allocator) :
    (computation >>= next).run.run before = match computation.run.run before with
      | (.ok result, middle) => (next result).run.run middle
      | (.error error, middle) => (.error error, middle) := by
  rw [ExceptT.run_bind, StateT.run_bind]
  rcases computation.run.run before with ⟨error | result, middle⟩ <;> rfl

theorem run_get_bind (next : Allocator → Encoding γ) (before : Allocator) :
    ((get : Encoding Allocator) >>= next).run.run before = (next before).run.run before :=
  rfl

theorem returns_bind : (computation >>= next).Returns before final after ↔
    ∃ result middle, computation.Returns before result middle ∧ (next result).Returns middle final after := by
  unfold Returns
  rw [run_bind]
  rcases computation.run.run before with ⟨error | result, middle⟩
  · constructor
    · intro h
      cases h
    · rintro ⟨result, middle, h, -⟩
      cases h
  · constructor
    · intro h
      exact ⟨result, middle, rfl, h⟩
    · rintro ⟨result, middle, h, hfinal⟩
      cases h
      exact hfinal

theorem returns_pure (result : β) (before : Allocator) :
    (pure result : Encoding β).Returns before result before :=
  rfl

theorem returns_lift : (liftM action : Encoding β).Returns before result after ↔
    action.run before = (result, after) := by
  have hrun : (liftM action : Encoding β).run.run before = (.ok (action.run before).1, (action.run before).2) := rfl
  unfold Returns
  rw [hrun]
  constructor
  · intro h
    cases h
    rfl
  · intro h
    rw [h]

theorem returns_get (before : Allocator) : (get : Encoding Allocator).Returns before before before :=
  rfl

theorem returns_ofFormula_zeroFormula {modsat : Modsat} :
    (do pure (.ofFormula (← zeroFormula)) : Encoding Modsat).Returns before modsat after ↔
      ∃ phi, (liftM zeroFormula : Encoding Formula).Returns before phi after ∧ modsat = .ofFormula phi := by
  constructor
  · intro hrun
    obtain ⟨phi, _, hphi, hreturns⟩ := returns_bind.mp hrun
    cases hreturns
    exact ⟨phi, hphi, rfl⟩
  · rintro ⟨phi, hphi, rfl⟩
    exact returns_bind.mpr ⟨phi, after, hphi, returns_pure _ _⟩

theorem Returns.unique {last : Allocator} (h : computation.Returns before result after)
    (h' : computation.Returns before other last) : result = other ∧ after = last := by
  cases h.symm.trans h'
  exact ⟨rfl, rfl⟩

end Encoding

/-! ### Meaning -/

namespace Allocator

/-- Everything that is remembered lies among the variables handed out, doubling chains included. -/
structure Scoped (allocator : Allocator) : Prop where
  zero : ∀ {index}, allocator.zero = some index → 0 < index ∧ index ≤ allocator.counter
  constants : ∀ {denominator index}, allocator.constants.get? denominator = some index →
    0 < denominator ∧ index ≤ allocator.counter ∧
      (3 ≤ denominator → index + 1 + (denominator - 1).log2 ≤ allocator.counter)
  auxMultipliers : ∀ {denominator index}, allocator.auxMultipliers.get? denominator = some index →
    index ≤ allocator.counter

/-- What is remembered has its value: a constant is its unit fraction, with the doubled multiples of it on the
chain behind it, and a remembered multiple is one. -/
structure Meaning (allocator : Allocator) (valuation : Nat → ℚ) : Prop where
  constants : ∀ {denominator index}, allocator.constants.get? denominator = some index →
    valuation index = 1 / denominator ∧
      (3 ≤ denominator → Chained valuation (index + 1) (denominator - 1).log2 (1 / denominator))
  auxMultipliers : ∀ {denominator index}, allocator.auxMultipliers.get? denominator = some index →
    valuation index = 1

variable {allocator : Allocator} {valuation other : Nat → ℚ}

theorem scoped_ofDim (dim : Nat) : (ofDim dim).Scoped where
  zero h := nomatch h
  constants h := nomatch h
  auxMultipliers h := nomatch h

theorem meaning_ofDim (dim : Nat) (valuation : Nat → ℚ) : (ofDim dim).Meaning valuation where
  constants h := nomatch h
  auxMultipliers h := nomatch h

/-- Moving the counter forward keeps everything in scope. -/
theorem Scoped.advance (h : allocator.Scoped) {target : Nat} (hle : allocator.counter ≤ target) :
    Scoped { allocator with counter := target } where
  zero hzero := ⟨(h.zero hzero).1, (h.zero hzero).2.trans hle⟩
  constants hconstant := by
    obtain ⟨hpos, hindex, hchain⟩ := h.constants hconstant
    exact ⟨hpos, hindex.trans hle, fun hthree => (hchain hthree).trans hle⟩
  auxMultipliers haux := (h.auxMultipliers haux).trans hle

theorem Meaning.advance (h : allocator.Meaning valuation) (target : Nat) :
    Meaning { allocator with counter := target } valuation :=
  ⟨h.constants, h.auxMultipliers⟩

/-- The meaning depends on the variables handed out only. -/
theorem Meaning.congr (h : allocator.Meaning valuation) (hscoped : allocator.Scoped)
    (hagree : ∀ index ≤ allocator.counter, other index = valuation index) : allocator.Meaning other where
  constants hconstant := by
    obtain ⟨-, hindex, hbound⟩ := hscoped.constants hconstant
    obtain ⟨hvalue, hchain⟩ := h.constants hconstant
    exact ⟨(hagree _ hindex).trans hvalue, fun hthree => (hchain hthree).congr (hbound hthree) hagree⟩
  auxMultipliers haux := (hagree _ (hscoped.auxMultipliers haux)).trans (h.auxMultipliers haux)

/-! ### Steps -/

section Forces

variable {first second third before after : Allocator} {defining more : List Formula}

/-- A step between states whose formulas give the later state its meaning. Nothing is said about whether they can
hold. -/
structure Forces (before after : Allocator) (defining : List Formula) : Prop where
  counter_le : before.counter ≤ after.counter
  scope : after.Scoped
  sound : after.counter ≤ variableMax → ∀ ⦃valuation⦄, UnitValued valuation → before.Meaning valuation →
    Formula.Satisfies valuation defining → after.Meaning valuation

namespace Forces

theorem refl (h : before.Scoped) : Forces before before [] where
  counter_le := le_rfl
  scope := h
  sound _ _ _ hmeaning _ := hmeaning

theorem mono (h : Forces before after defining) (hsub : defining ⊆ more) : Forces before after more where
  counter_le := h.counter_le
  scope := h.scope
  sound hmax _ hunit hmeaning hsatisfies :=
    h.sound hmax hunit hmeaning fun formula hformula => hsatisfies formula (hsub hformula)

theorem trans (h : Forces first second defining) (h' : Forces second third more) :
    Forces first third (defining ++ more) where
  counter_le := h.counter_le.trans h'.counter_le
  scope := h'.scope
  sound hmax _ hunit hmeaning hsatisfies := by
    obtain ⟨hfirst, hsecond⟩ := Formula.satisfies_append.mp hsatisfies
    exact h'.sound hmax hunit (h.sound (h'.counter_le.trans hmax) hunit hmeaning hfirst) hsecond

end Forces

end Forces

/-- A step between scoped states with the formulas that it returns. Where the formulas hold the later state has its
meaning, and a valuation in which the earlier state has its meaning can be changed above the earlier counter so
that the formulas hold. -/
structure Step (before after : Allocator) (defining : List Formula) : Prop where
  counter_le : before.counter ≤ after.counter
  scope : after.Scoped
  sound : after.counter ≤ variableMax → ∀ ⦃valuation⦄, UnitValued valuation → before.Meaning valuation →
    Formula.Satisfies valuation defining → after.Meaning valuation
  below : ∀ formula ∈ defining, formula.Below after.counter
  complete : after.counter ≤ variableMax → ∀ ⦃valuation⦄, UnitValued valuation → before.Meaning valuation →
    ∃ extended, UnitValued extended ∧
      (∀ index ≤ before.counter, extended index = valuation index) ∧ after.Meaning extended ∧
        Formula.Satisfies extended defining

namespace Step

variable {first second third : Allocator} {defining more : List Formula}

theorem forces (h : Step first second defining) : Forces first second defining :=
  ⟨h.counter_le, h.scope, h.sound⟩

/-- Where the formulas give the later state its meaning, a change that makes them hold is enough. -/
theorem of_sound (hscoped : first.Scoped) (hcounter : first.counter ≤ second.counter) (hscoped' : second.Scoped)
    (hsound : second.counter ≤ variableMax → ∀ ⦃valuation⦄, UnitValued valuation → first.Meaning valuation →
      Formula.Satisfies valuation defining → second.Meaning valuation)
    (hbelow : ∀ formula ∈ defining, formula.Below second.counter)
    (hcomplete : second.counter ≤ variableMax → ∀ ⦃valuation⦄, UnitValued valuation →
      first.Meaning valuation → ∃ extended, UnitValued extended ∧
        (∀ index ≤ first.counter, extended index = valuation index) ∧ Formula.Satisfies extended defining) :
    Step first second defining where
  counter_le := hcounter
  scope := hscoped'
  sound := hsound
  below := hbelow
  complete hmax _ hunit hmeaning := by
    obtain ⟨extended, hunit', hagree, hsatisfies⟩ := hcomplete hmax hunit hmeaning
    exact ⟨extended, hunit', hagree, hsound hmax hunit' (hmeaning.congr hscoped hagree) hsatisfies, hsatisfies⟩

theorem refl (hscoped : first.Scoped) : Step first first [] where
  counter_le := le_rfl
  scope := hscoped
  sound _ _ _ hmeaning _ := hmeaning
  below _ hmem := absurd hmem List.not_mem_nil
  complete _ {valuation} hunit hmeaning :=
    ⟨valuation, hunit, fun _ _ => rfl, hmeaning, Formula.satisfies_nil⟩

/-- A step that remembers nothing more and defines nothing. -/
theorem advance (hscoped : first.Scoped) {target : Nat} (hle : first.counter ≤ target) :
    Step first { first with counter := target } [] where
  counter_le := hle
  scope := hscoped.advance hle
  sound _ _ _ hmeaning _ := hmeaning.advance target
  below _ hmem := absurd hmem List.not_mem_nil
  complete _ {valuation} hunit hmeaning :=
    ⟨valuation, hunit, fun _ _ => rfl, hmeaning.advance target, Formula.satisfies_nil⟩

theorem trans (h : Step first second defining) (h' : Step second third more) :
    Step first third (defining ++ more) where
  counter_le := h.counter_le.trans h'.counter_le
  scope := h'.scope
  sound := (h.forces.trans h'.forces).sound
  below formula hformula := by
    rcases List.mem_append.mp hformula with hformula | hformula
    · exact (h.below formula hformula).mono h'.counter_le
    · exact h'.below formula hformula
  complete hmax {valuation} hunit hmeaning := by
    have hmax' := h'.counter_le.trans hmax
    obtain ⟨middle, hunit', hagree, hmeaning', hsatisfies⟩ := h.complete hmax' hunit hmeaning
    obtain ⟨extended, hunit'', hagree', hmeaning'', hsatisfies'⟩ :=
      h'.complete hmax hunit' hmeaning'
    refine ⟨extended, hunit'', fun index hindex => ?_, hmeaning'', Formula.satisfies_append.mpr
      ⟨fun formula hformula => ?_, hsatisfies'⟩⟩
    · rw [hagree' index (hindex.trans h.counter_le), hagree index hindex]
    · exact ((h.below formula hformula).denotes_congr hmax' hagree').mpr (hsatisfies formula hformula)

/-- A variable that the counter goes over before a step may have any value of the unit interval. -/
theorem exists_assigned (h : Step { first with counter := first.counter + 1 } second defining)
    (hscoped : first.Scoped) (hmax : second.counter ≤ variableMax) {valuation : Nat → ℚ}
    (hunit : UnitValued valuation) (hmeaning : first.Meaning valuation) {value : ℚ} (hnonneg : 0 ≤ value)
    (hone : value ≤ 1) :
    ∃ extended, UnitValued extended ∧ (∀ index ≤ first.counter, extended index = valuation index) ∧
      Formula.Satisfies extended defining ∧ extended (first.counter + 1) = value := by
  have hagree : ∀ index ≤ first.counter,
      Function.update valuation (first.counter + 1) value index = valuation index :=
    fun index hindex => Function.update_of_ne (Nat.lt_succ_of_le hindex).ne _ _
  obtain ⟨extended, hunit', hagree', -, hsatisfies⟩ := h.complete hmax (hunit.update hnonneg hone _)
    ((hmeaning.congr hscoped hagree).advance _)
  refine ⟨extended, hunit', fun index hindex => ?_, hsatisfies, ?_⟩
  · exact (hagree' index (hindex.trans (Nat.le_succ _))).trans (hagree index hindex)
  · exact (hagree' (first.counter + 1) le_rfl).trans (Function.update_self _ _ _)

end Step

/-- A step that returns a formula for a value, which may depend on the valuation of the inputs. -/
structure Encodes (before after : Allocator) (modsat : Modsat) (value : (Nat → ℚ) → ℚ) :
    Prop extends Step before after modsat.defining where
  total : modsat.phi.Total
  phi_below : modsat.phi.Below after.counter
  denotes : after.counter ≤ variableMax → ∀ ⦃valuation⦄, UnitValued valuation → before.Meaning valuation →
    Formula.Satisfies valuation modsat.defining → modsat.phi.Denotes valuation (value valuation)

/-- An encoding behind a step that defines what it needs. -/
theorem Encodes.behind {first second third : Allocator} {defining : List Formula} {modsat : Modsat}
    {value : (Nat → ℚ) → ℚ} (h : Encodes second third modsat value)
    (hstep : Step first second defining) :
    Encodes first third ⟨modsat.phi, defining ++ modsat.defining⟩ value where
  toStep := hstep.trans h.toStep
  total := h.total
  phi_below := h.phi_below
  denotes hmax valuation hunit hmeaning hsatisfies := by
    obtain ⟨hfirst, hsecond⟩ := Formula.satisfies_append.mp hsatisfies
    exact h.denotes hmax hunit (hstep.sound (h.counter_le.trans hmax) hunit hmeaning hfirst) hsecond

theorem Encodes.push {first second third : Allocator} {left right : Modsat} {value other : (Nat → ℚ) → ℚ}
    (h : Encodes first second left value) (h' : Encodes second third right other) (connective : Connective) :
    Encodes first third ⟨left.phi.push connective right.phi, left.defining ++ right.defining⟩
      fun valuation => connective.apply (value valuation) (other valuation) where
  toStep := h.toStep.trans h'.toStep
  total := h.total.push h'.total connective
  phi_below := (h.phi_below.mono h'.counter_le).push h'.phi_below connective
  denotes hmax valuation hunit hmeaning hsatisfies := by
    obtain ⟨hfirst, hsecond⟩ := Formula.satisfies_append.mp hsatisfies
    have hmax' := h'.counter_le.trans hmax
    exact (h.denotes hmax' hunit hmeaning hfirst).push hunit
      (h'.denotes hmax hunit (h.sound hmax' hunit hmeaning hfirst) hsecond) connective

theorem Encodes.negate {first second : Allocator} {modsat : Modsat} {value : (Nat → ℚ) → ℚ}
    (h : Encodes first second modsat value) :
    Encodes first second ⟨modsat.phi.negate, modsat.defining⟩ fun valuation => 1 - value valuation where
  toStep := h.toStep
  total := h.total.negate
  phi_below := h.phi_below.negate
  denotes hmax _ hunit hmeaning hsatisfies := (h.denotes hmax hunit hmeaning hsatisfies).negate

end Allocator

end ReluLogic
