import ReluLogic.Proofs.Encoding.Allocation

/-!
Values of the basic gadgets. The zero formula is zero, a multiple of a term is the multiple cut off at one, the
constant of a denominator is its unit fraction, and the multiples of a constant are read off its chain exactly.
-/

namespace ReluLogic

namespace Encoding

open Allocator (Step Encodes)

variable {n numerator denominator constant : Nat} {before after : Allocator} {term : Formula}
  {valuation : Nat → ℚ}

/-! ### Zero -/

/-- The formula of the zero variable `index`. -/
def zeroOf (index : Nat) : Formula :=
  (Formula.clause [-(index : Int), index]).negate

theorem run_zeroFormula_of_some {index : Nat} (h : before.zero = some index) :
    zeroFormula.run before = (zeroOf index, before) := by
  obtain ⟨counter, zero, constants, auxMultipliers⟩ := before
  cases h
  rfl

theorem run_zeroFormula_of_none (h : before.zero = none) :
    zeroFormula.run before = (zeroOf (before.counter + 1),
      { before with counter := before.counter + 1, zero := some (before.counter + 1) }) := by
  obtain ⟨counter, zero, constants, auxMultipliers⟩ := before
  cases h
  rfl

/-- The zero formula is that of the zero variable, which is handed out once. -/
theorem run_zeroFormula_eq (before : Allocator) :
    ∃ index, (zeroFormula.run before).1 = zeroOf index ∧ (zeroFormula.run before).2.zero = some index ∧
      ∀ other, before.zero = some other → other = index := by
  rcases hzero : before.zero with _ | index
  · rw [run_zeroFormula_of_none hzero]
    exact ⟨_, rfl, rfl, fun _ h => nomatch h⟩
  · rw [run_zeroFormula_of_some hzero]
    exact ⟨index, rfl, hzero, fun _ h => (Option.some.inj h).symm⟩

theorem denotes_zeroOf {index : Nat} (hpos : 0 < index) : (zeroOf index).Denotes valuation 0 := by
  have hclause := (Formula.denotes_clause valuation [-(index : Int), (index : Int)]).negate
  rw [Subformula.clauseSum, List.map_cons, List.map_singleton, List.sum_cons, List.sum_singleton,
    Subformula.literalDegree_neg hpos, sub_add_cancel, min_self, sub_self] at hclause
  exact hclause

theorem within_zeroOf {index : Nat} {P : Nat → Prop} (h : P index) : (zeroOf index).Within P := by
  refine (Formula.within_clause fun literal hliteral => ?_).negate
  simp only [List.mem_cons, List.not_mem_nil, or_false] at hliteral
  rcases hliteral with rfl | rfl
  · rwa [Int.natAbs_neg, Int.natAbs_natCast]
  · rwa [Int.natAbs_natCast]

theorem below_zeroOf {index bound : Nat} (h : index ≤ bound) : (zeroOf index).Below bound :=
  Formula.below_iff_within.mpr (within_zeroOf h)

/-- The zero variable is in scope once it is handed out. -/
theorem scoped_withZero (h : before.Scoped) :
    Allocator.Scoped { before with counter := before.counter + 1, zero := some (before.counter + 1) } where
  zero hzero := by
    cases hzero
    exact ⟨Nat.succ_pos _, le_rfl⟩
  constants := (h.advance (Nat.le_succ _)).constants
  auxMultipliers := (h.advance (Nat.le_succ _)).auxMultipliers

/-- The zero formula is that of a variable in scope. -/
theorem exists_zeroFormula_eq (h : before.Scoped) :
    ∃ index after, zeroFormula.run before = (zeroOf index, after) ∧ Step before after [] ∧
      0 < index ∧ index ≤ after.counter := by
  rcases hzero : before.zero with _ | index
  · refine ⟨_, _, run_zeroFormula_of_none hzero, ?_, Nat.succ_pos _, le_rfl⟩
    refine .of_sound h (Nat.le_succ _) (scoped_withZero h)
      (fun _ _ _ hmeaning _ => ⟨hmeaning.constants, hmeaning.auxMultipliers⟩)
      (fun _ hmem => absurd hmem List.not_mem_nil) fun _ valuation hunit _ => ?_
    exact ⟨valuation, hunit, fun _ _ => rfl, Formula.satisfies_nil⟩
  · exact ⟨_, _, run_zeroFormula_of_some hzero, .refl h, h.zero hzero⟩

theorem total_zeroOf (index : Nat) : (zeroOf index).Total :=
  (Formula.total_clause _).negate

theorem encodes_zeroOf {index : Nat} (h : Step before after []) (hpos : 0 < index)
    (hle : index ≤ after.counter) {value : (Nat → ℚ) → ℚ} (hvalue : ∀ valuation, value valuation = 0) :
    Encodes before after (.ofFormula (zeroOf index)) value where
  toStep := h
  total := total_zeroOf index
  phi_below := below_zeroOf hle
  denotes _ valuation _ _ _ := by
    rw [hvalue valuation]
    exact denotes_zeroOf hpos

/-! ### Multiples -/

theorem run_multiple_of_two_le (h : 2 ≤ n) (term : Formula) (before : Allocator) :
    (multiple n term).run before =
      (⟨bitClause (before.counter + 1) n, chain (before.counter + 1) term n.log2⟩,
        { before with counter := before.counter + (n.log2 + 1) }) := by
  rw [multiple, if_neg (by omega), if_neg (by omega)]
  rfl

/-- A multiple speaks of its term and of new variables; nothing times a term speaks of the zero variable. -/
theorem within_multiple {P : Nat → Prop} {modsat : Modsat} (hrun : (multiple n term).run before = (modsat, after))
    (hterm : term.Within P) (hnew : ∀ index, before.counter < index → index ≤ after.counter → P index)
    (hzero : n = 0 → ∀ index, after.zero = some index → P index) :
    modsat.phi.Within P ∧ ∀ formula ∈ modsat.defining, formula.Within P := by
  by_cases htwo : 2 ≤ n
  · rw [run_multiple_of_two_le htwo] at hrun
    cases hrun
    have hchain : ∀ step ≤ n.log2, P (before.counter + 1 + step) := by
      intro step hstep
      apply hnew
      · omega
      · show before.counter + 1 + step ≤ before.counter + (n.log2 + 1)
        omega
    exact ⟨within_bitClause hchain, within_chain hterm hchain⟩
  · by_cases hone : n = 1
    · subst hone
      cases hrun
      exact ⟨hterm, fun _ hmem => absurd hmem List.not_mem_nil⟩
    · obtain rfl : n = 0 := by omega
      obtain ⟨index, hphi, hindex, -⟩ := run_zeroFormula_eq before
      rw [multiple, if_pos rfl, StateT.run_bind] at hrun
      cases hrun
      rw [hphi]
      exact ⟨within_zeroOf (hzero rfl index hindex), fun _ hmem => absurd hmem List.not_mem_nil⟩

/-- A multiple is made without a look at the constants. -/
theorem run_multiple_withConstants (n : Nat) (term : Formula) (before : Allocator) (constants : Memo) :
    (multiple n term).run { before with constants } =
      (((multiple n term).run before).1, { ((multiple n term).run before).2 with constants }) := by
  obtain ⟨counter, zero, old, auxMultipliers⟩ := before
  rw [multiple]
  split_ifs
  · cases zero <;> rfl
  · rfl
  · rfl

theorem run_multiple_constants (n : Nat) (term : Formula) (before : Allocator) :
    ((multiple n term).run before).2.constants = before.constants ∧
      ((multiple n term).run before).2.auxMultipliers = before.auxMultipliers := by
  obtain ⟨counter, zero, constants, auxMultipliers⟩ := before
  rw [multiple]
  split_ifs
  · cases zero <;> exact ⟨rfl, rfl⟩
  · exact ⟨rfl, rfl⟩
  · exact ⟨rfl, rfl⟩

/-- Nothing times a term is the zero formula of a variable remembered or new. -/
theorem run_multiple_zero (term : Formula) (before : Allocator) : ∃ index after,
    (multiple 0 term).run before = (.ofFormula (zeroOf index), after) ∧
      (before.zero = some index ∨ index = before.counter + 1) := by
  rw [multiple, if_pos rfl, StateT.run_bind]
  rcases hzero : before.zero with _ | index
  · rw [run_zeroFormula_of_none hzero]
    exact ⟨_, _, rfl, Or.inr rfl⟩
  · rw [run_zeroFormula_of_some hzero]
    exact ⟨index, before, rfl, Or.inl rfl⟩

/-- Whatever the state of allocation, a multiple has its degree where its definitions hold. Variables count from one,
so that the zero variable and its negation are different literals. -/
theorem denotes_multiple {modsat : Modsat} {degree : ℚ} (htotal : term.Total) (hzero : n = 0 → before.zero ≠ some 0)
    (hrun : (multiple n term).run before = (modsat, after)) (hmax : after.counter ≤ variableMax)
    (hunit : UnitValued valuation) (hdefining : Formula.Satisfies valuation modsat.defining)
    (hterm : term.Denotes valuation degree) : modsat.phi.Denotes valuation (min (n * degree) 1) := by
  obtain ⟨hnonneg, hone⟩ := htotal.degree_mem hunit hterm
  obtain rfl | rfl | htwo : n = 0 ∨ n = 1 ∨ 2 ≤ n := by omega
  · obtain ⟨index, middle, hzeroRun, hindex⟩ := run_multiple_zero term before
    cases hzeroRun.symm.trans hrun
    rw [Nat.cast_zero, zero_mul, min_eq_left zero_le_one]
    apply denotes_zeroOf
    rcases hindex with hindex | rfl
    · exact Nat.pos_of_ne_zero fun hnil => hzero rfl (hnil ▸ hindex)
    · exact Nat.succ_pos _
  · cases hrun
    rwa [Nat.cast_one, one_mul, min_eq_left hone]
  · rw [run_multiple_of_two_le htwo] at hrun
    cases hrun
    have hbound : before.counter + 1 + n.log2 ≤ variableMax := by
      rw [add_assoc, add_comm 1]
      exact hmax
    exact denotes_bitClause hbound hnonneg ((satisfies_chain_iff hunit hbound hterm hnonneg hone).mp hdefining)

/-- A step that returns the multiple of a term, cut off at one. -/
structure Multiplies (before after : Allocator) (n : Nat) (term : Formula) (modsat : Modsat) :
    Prop extends Step before after modsat.defining where
  total : modsat.phi.Total
  phi_below : modsat.phi.Below after.counter
  denotes : after.counter ≤ variableMax → ∀ {valuation degree}, UnitValued valuation →
    Formula.Satisfies valuation modsat.defining → term.Denotes valuation degree →
      modsat.phi.Denotes valuation (min (n * degree) 1)

theorem exists_multiple_eq (h : before.Scoped) (n : Nat) (htotal : term.Total)
    (hbelow : term.Below before.counter) :
    ∃ modsat after, (multiple n term).run before = (modsat, after) ∧
      Multiplies before after n term modsat := by
  have hdenotes : ∀ {modsat after}, (multiple n term).run before = (modsat, after) →
      after.counter ≤ variableMax → ∀ {valuation degree}, UnitValued valuation →
        Formula.Satisfies valuation modsat.defining → term.Denotes valuation degree →
          modsat.phi.Denotes valuation (min (n * degree) 1) := by
    intro modsat after hrun hmax valuation degree hunit hdefining hterm
    exact denotes_multiple htotal (fun _ hnil => absurd (h.zero hnil).1 (lt_irrefl 0)) hrun hmax hunit hdefining hterm
  rcases Nat.lt_or_ge n 2 with hsmall | hlarge
  · rcases Nat.lt_or_ge n 1 with hzero | hone
    · obtain rfl : n = 0 := by omega
      obtain ⟨index, after, hrun, hstep, hpos, hle⟩ := exists_zeroFormula_eq h
      have hmultiple : (multiple 0 term).run before = (.ofFormula (zeroOf index), after) := by
        rw [multiple, if_pos rfl, StateT.run_bind, hrun]
        rfl
      exact ⟨_, _, hmultiple, hstep, total_zeroOf index, below_zeroOf hle, hdenotes hmultiple⟩
    · obtain rfl : n = 1 := by omega
      exact ⟨.ofFormula term, before, rfl, .refl h, htotal, hbelow, hdenotes rfl⟩
  · have hcounter : before.counter + 1 + n.log2 = before.counter + (n.log2 + 1) := by omega
    have hscoped : Allocator.Scoped { before with counter := before.counter + (n.log2 + 1) } :=
      h.advance (Nat.le_add_right _ _)
    have hrun := run_multiple_of_two_le hlarge term before
    refine ⟨_, _, hrun, ⟨?_, Formula.total_clause _, below_bitClause hcounter.le, hdenotes hrun⟩⟩
    refine .of_sound h (Nat.le_add_right _ _) hscoped (fun _ _ _ hmeaning _ => hmeaning.advance _) ?_ ?_
    · exact below_chain (hbelow.mono (Nat.le_add_right _ _)) hcounter.le
    · intro hmax valuation hunit hmeaning
      obtain ⟨degree, hzero, hone, hterm⟩ := htotal hunit
      have hmax' : before.counter ≤ variableMax := (Nat.le_add_right _ _).trans hmax
      have hunit' : UnitValued (withChain valuation (before.counter + 1) n.log2 degree) :=
        unitValued_withChain hunit hzero
      refine ⟨_, hunit', fun index hindex => withChain_of_lt (Nat.lt_succ_of_le hindex), ?_⟩
      refine (satisfies_chain_iff hunit' (hcounter.le.trans hmax) ?_ hzero hone).mpr (chained_withChain _ _ _ _)
      exact (hbelow.denotes_congr hmax' fun index hindex => withChain_of_lt (Nat.lt_succ_of_le hindex)).mpr hterm

/-! ### Constants -/

/-- The constant is handed out first and its multiple behind it. -/
theorem returns_defineConstant (hpos : 0 < denominator) {rest : Modsat} {middle : Allocator}
    (h : (multiple (denominator - 1) (.atom (before.counter + 1))).run
      { before with counter := before.counter + 1 } = (rest, middle)) :
    (defineConstant denominator).Returns before
      (before.counter + 1,
        rest.defining ++ [(Formula.atom (before.counter + 1)).equivalent rest.phi.negate])
      { middle with constants := before.constants.insert denominator (before.counter + 1) } := by
  rw [defineConstant, if_neg hpos.ne']
  refine returns_bind.mpr ⟨before.counter + 1, { before with
    counter := before.counter + 1, constants := before.constants.insert denominator (before.counter + 1) },
    returns_lift.mpr rfl, returns_bind.mpr ⟨rest, _, returns_lift.mpr ?_, returns_pure _ _⟩⟩
  have hrun := run_multiple_withConstants (denominator - 1) (.atom (before.counter + 1))
    { before with counter := before.counter + 1 } (before.constants.insert denominator (before.counter + 1))
  rw [h] at hrun
  exact hrun

/-- Only the unit fraction is one less its own multiple by `denominator - 1`, cut off at one. -/
theorem eq_one_div_iff (hpos : 0 < denominator) {value : ℚ} :
    value = 1 - min (((denominator - 1 : Nat) : ℚ) * value) 1 ↔ value = 1 / denominator := by
  have hcast : ((denominator - 1 : Nat) : ℚ) = denominator - 1 := by
    rw [Nat.cast_sub hpos, Nat.cast_one]
  have hpos' : (1 : ℚ) ≤ denominator := by exact_mod_cast hpos
  have hne : (denominator : ℚ) ≠ 0 := by linarith
  rw [hcast, eq_div_iff hne]
  constructor
  · intro h
    rcases le_total (((denominator : ℚ) - 1) * value) 1 with hle | hle
    · rw [min_eq_left hle] at h
      linarith
    · rw [min_eq_right hle] at h
      rw [h, sub_self, mul_zero] at hle
      linarith
  · intro h
    have hle : ((denominator : ℚ) - 1) * value ≤ 1 := by
      have hvalue : 0 ≤ value := by
        by_contra hneg
        have := mul_neg_of_neg_of_pos (not_le.mp hneg) (by linarith : (0 : ℚ) < denominator)
        linarith
      linarith
    rw [min_eq_left hle]
    linarith

/-- The multiple by which a new constant is defined. The constant is the first variable behind the counter; from
three on the chain of the multiple stands right behind it. -/
structure Defines (before middle : Allocator) (denominator : Nat) (rest : Modsat) : Prop
    extends Multiplies { before with counter := before.counter + 1 } middle (denominator - 1)
      (.atom (before.counter + 1)) rest where
  chain_eq : 3 ≤ denominator →
    rest.defining = chain (before.counter + 1 + 1) (.atom (before.counter + 1)) (denominator - 1).log2
  chain_le : 3 ≤ denominator → before.counter + 1 + 1 + (denominator - 1).log2 ≤ middle.counter
  auxMultipliers_eq : middle.auxMultipliers = before.auxMultipliers

theorem exists_defines (h : before.Scoped) (denominator : Nat) :
    ∃ rest middle, (multiple (denominator - 1) (.atom (before.counter + 1))).run
      { before with counter := before.counter + 1 } = (rest, middle) ∧ Defines before middle denominator rest := by
  obtain ⟨rest, middle, hrun, hmultiple⟩ := exists_multiple_eq (h.advance (Nat.le_succ before.counter))
    (denominator - 1) (Formula.total_atom (before.counter + 1)) (Formula.below_atom le_rfl)
  have hmemo := run_multiple_constants (denominator - 1) (.atom (before.counter + 1))
    { before with counter := before.counter + 1 }
  rw [hrun] at hmemo
  have hchain : 3 ≤ denominator → rest.defining =
      chain (before.counter + 1 + 1) (.atom (before.counter + 1)) (denominator - 1).log2 ∧
        middle.counter = before.counter + 1 + ((denominator - 1).log2 + 1) := by
    intro hthree
    have hrun' := run_multiple_of_two_le (show 2 ≤ denominator - 1 by omega) (.atom (before.counter + 1))
      { before with counter := before.counter + 1 }
    rw [hrun] at hrun'
    cases hrun'
    exact ⟨rfl, rfl⟩
  refine ⟨rest, middle, hrun, hmultiple, fun hthree => (hchain hthree).1, fun hthree => ?_, hmemo.2⟩
  rw [(hchain hthree).2]
  omega

namespace Defines

variable {middle : Allocator} {rest : Modsat}

theorem index_le (h : Defines before middle denominator rest) : before.counter + 1 ≤ middle.counter :=
  h.counter_le

/-- The binding of the constant holds where it is the unit fraction. -/
theorem holds_iff (h : Defines before middle denominator rest) (hpos : 0 < denominator)
    (hmax : middle.counter ≤ variableMax) (hunit : UnitValued valuation)
    (hrest : Formula.Satisfies valuation rest.defining) :
    ((Formula.atom (before.counter + 1)).equivalent rest.phi.negate).Holds valuation ↔
      valuation (before.counter + 1) = 1 / denominator := by
  have hdenotes := Formula.denotes_atom hunit (h.index_le.trans hmax)
  rw [Formula.holds_equivalent_iff hunit hdenotes (h.denotes hmax hunit hrest hdenotes).negate]
  exact eq_one_div_iff hpos

/-- The chain carries the doubled multiples of the unit fraction. -/
theorem chained (h : Defines before middle denominator rest) (hthree : 3 ≤ denominator)
    (hmax : middle.counter ≤ variableMax) (hunit : UnitValued valuation)
    (hrest : Formula.Satisfies valuation rest.defining)
    (hvalue : valuation (before.counter + 1) = 1 / denominator) :
    Chained valuation (before.counter + 1 + 1) (denominator - 1).log2 (1 / denominator) := by
  rw [h.chain_eq hthree] at hrest
  have hdenotes := Formula.denotes_atom hunit (h.index_le.trans hmax)
  have hbounds := hunit (before.counter + 1)
  rw [hvalue] at hdenotes hbounds
  exact (satisfies_chain_iff hunit ((h.chain_le hthree).trans hmax) hdenotes hbounds.1 hbounds.2).mp hrest

theorem scoped_after (h : Defines before middle denominator rest) (hscoped : before.Scoped) (hpos : 0 < denominator) :
    Allocator.Scoped { middle with constants := before.constants.insert denominator (before.counter + 1) } where
  zero := h.scope.zero
  constants {other found} hfound := by
    rw [Memo.get?_insert] at hfound
    split_ifs at hfound with heq
    · cases hfound
      rw [heq]
      exact ⟨hpos, h.index_le, h.chain_le⟩
    · exact (hscoped.advance ((Nat.le_succ _).trans h.index_le)).constants hfound
  auxMultipliers := h.scope.auxMultipliers

theorem meaning_after (h : Defines before middle denominator rest) (hmax : middle.counter ≤ variableMax)
    (hunit : UnitValued valuation) (hmeaning : before.Meaning valuation)
    (hrest : Formula.Satisfies valuation rest.defining)
    (hvalue : valuation (before.counter + 1) = 1 / denominator) :
    Allocator.Meaning { middle with constants := before.constants.insert denominator (before.counter + 1) }
      valuation where
  constants {other found} hfound := by
    rw [Memo.get?_insert] at hfound
    split_ifs at hfound with heq
    · cases hfound
      rw [heq]
      exact ⟨hvalue, fun hthree => h.chained hthree hmax hunit hrest hvalue⟩
    · exact hmeaning.constants hfound
  auxMultipliers haux := by
    rw [h.auxMultipliers_eq] at haux
    exact hmeaning.auxMultipliers haux

/-- The unit fraction for the constant extends to the variables of its multiple. -/
theorem exists_value (h : Defines before middle denominator rest) (hscoped : before.Scoped)
    (hpos : 0 < denominator) (hmax : middle.counter ≤ variableMax) (hunit : UnitValued valuation)
    (hmeaning : before.Meaning valuation) :
    ∃ extended, UnitValued extended ∧ (∀ index ≤ before.counter, extended index = valuation index) ∧
      Formula.Satisfies extended rest.defining ∧ extended (before.counter + 1) = 1 / denominator := by
  have hone : (1 : ℚ) ≤ denominator := by exact_mod_cast hpos
  have hle : (1 : ℚ) / denominator ≤ 1 := (div_le_one (by linarith)).mpr hone
  exact h.toStep.exists_assigned hscoped hmax hunit hmeaning (by positivity) hle

/-- The constant and its multiple are a step. -/
theorem step (h : Defines before middle denominator rest) (hscoped : before.Scoped) (hpos : 0 < denominator) :
    Step before { middle with constants := before.constants.insert denominator (before.counter + 1) }
      (rest.defining ++ [(Formula.atom (before.counter + 1)).equivalent rest.phi.negate]) := by
  refine .of_sound hscoped ((Nat.le_succ _).trans h.index_le) (h.scoped_after hscoped hpos) ?_ ?_ ?_
  · intro hmax valuation hunit hmeaning hsatisfies
    obtain ⟨hrest, hbinding⟩ := Formula.satisfies_append.mp hsatisfies
    exact h.meaning_after hmax hunit hmeaning hrest
      ((h.holds_iff hpos hmax hunit hrest).mp (Formula.satisfies_singleton.mp hbinding))
  · intro formula hformula
    rcases List.mem_append.mp hformula with hformula | hformula
    · exact h.below formula hformula
    · cases List.mem_singleton.mp hformula
      exact (Formula.below_atom h.index_le).push h.phi_below.negate _
  · intro hmax valuation hunit hmeaning
    obtain ⟨extended, hunit', hagree, hrest, hvalue⟩ := h.exists_value hscoped hpos hmax hunit hmeaning
    exact ⟨extended, hunit', hagree, Formula.satisfies_append.mpr
      ⟨hrest, Formula.satisfies_singleton.mpr ((h.holds_iff hpos hmax hunit' hrest).mpr hvalue)⟩⟩

end Defines

/-- A constant that is handed out has the value of its unit fraction. -/
theorem exists_defineConstant_eq (h : before.Scoped) (hpos : 0 < denominator) :
    ∃ index defining after, (defineConstant denominator).Returns before (index, defining) after ∧
      Step before after defining ∧ after.constants.get? denominator = some index := by
  obtain ⟨rest, middle, hrun, hdefines⟩ := exists_defines h denominator
  refine ⟨before.counter + 1, _, _, returns_defineConstant hpos hrun, hdefines.step h hpos, ?_⟩
  exact (Memo.get?_insert before.constants denominator _ denominator).trans (if_pos rfl)

/-- A constant that is remembered is handed out with nothing to define. -/
theorem returns_constant_of_some {index : Nat} (h : before.constants.get? denominator = some index) :
    (Encoding.constant denominator).Returns before (index, []) before := by
  refine returns_bind.mpr ⟨before, before, returns_get before, ?_⟩
  rw [h]
  exact returns_pure _ _

/-- A constant that is not remembered is defined. -/
theorem returns_constant_of_none (h : before.constants.get? denominator = none) {result : Nat × List Formula} :
    (Encoding.constant denominator).Returns before result after ↔
      (defineConstant denominator).Returns before result after := by
  rw [Encoding.constant, returns_bind]
  constructor
  · rintro ⟨_, _, hget, hreturns⟩
    obtain ⟨rfl, rfl⟩ := hget.unique (returns_get before)
    rwa [h] at hreturns
  · intro hreturns
    refine ⟨before, before, returns_get before, ?_⟩
    rwa [h]

/-- A constant that is asked for is remembered afterwards. -/
theorem exists_constant_eq (h : before.Scoped) (hpos : 0 < denominator) :
    ∃ index defining after, (Encoding.constant denominator).Returns before (index, defining) after ∧
      Step before after defining ∧ after.constants.get? denominator = some index := by
  rcases hknown : before.constants.get? denominator with _ | index
  · obtain ⟨index, defining, after, hrun, hstep, hget⟩ := exists_defineConstant_eq h hpos
    exact ⟨index, defining, after, (returns_constant_of_none hknown).mpr hrun, hstep, hget⟩
  · exact ⟨index, [], before, returns_constant_of_some hknown, .refl h, hknown⟩

/-! ### Multiples of constants -/

theorem run_auxMultiplier_of_some {index : Nat} (h : before.auxMultipliers.get? denominator = some index) :
    (Allocator.auxMultiplier denominator).run before = (.existing index, before) := by
  rw [Allocator.auxMultiplier, StateT.run_bind, StateT.run_get, pure_bind, h]
  rfl

theorem run_auxMultiplier_of_none (h : before.auxMultipliers.get? denominator = none) :
    (Allocator.auxMultiplier denominator).run before = (.fresh (before.counter + 1), { before with
      counter := before.counter + 1
      auxMultipliers := before.auxMultipliers.insert denominator (before.counter + 1) }) := by
  rw [Allocator.auxMultiplier, StateT.run_bind, StateT.run_get, pure_bind, h]
  rfl

/-- Where the chain of a constant ends below its denominator, the denominator is the next power of two. -/
theorem pow_log2_eq (hpos : 0 < denominator) (h : (denominator - 1).log2 < denominator.log2) :
    2 ^ denominator.log2 = denominator := by
  have hle : 2 ^ denominator.log2 ≤ denominator := Nat.log2_self_le hpos.ne'
  have hlt : denominator - 1 < 2 ^ ((denominator - 1).log2 + 1) := Nat.lt_log2_self
  have hpow : 2 ^ ((denominator - 1).log2 + 1) ≤ 2 ^ denominator.log2 := Nat.pow_le_pow_right two_pos h
  omega

theorem log2_pred_add_one (hpos : 0 < denominator) (h : (denominator - 1).log2 < denominator.log2) :
    denominator.log2 = (denominator - 1).log2 + 1 := by
  refine le_antisymm ?_ h
  have hpow := pow_log2_eq hpos h
  by_contra hlarge
  have hpow' : 2 ^ ((denominator - 1).log2 + 1) < 2 ^ denominator.log2 :=
    Nat.pow_lt_pow_right one_lt_two (not_le.mp hlarge)
  have hlt : denominator - 1 < 2 ^ ((denominator - 1).log2 + 1) := Nat.lt_log2_self
  omega

/-- The last variable of a constant's chain doubled. -/
def doubleTop (constant denominator : Nat) : Formula :=
  .clause [((constant + denominator.log2 : Nat) : Int), (constant + denominator.log2 : Nat)]

theorem top_eq (hpos : 0 < denominator) (hlog : (denominator - 1).log2 < denominator.log2) :
    constant + denominator.log2 = constant + 1 + (denominator - 1).log2 := by
  rw [log2_pred_add_one hpos hlog]
  omega

/-- A variable that is remembered as the whole encodes one. -/
theorem encodes_whole {index : Nat} {defining : List Formula} (hstep : Step before after defining)
    (hwhole : after.auxMultipliers.get? denominator = some index) :
    Encodes before after ⟨.atom index, defining⟩ fun _ => 1 where
  toStep := hstep
  total := Formula.total_clause _
  phi_below := Formula.below_atom (hstep.scope.auxMultipliers hwhole)
  denotes hmax valuation hunit hmeaning hsatisfies := by
    have hdenotes := Formula.denotes_atom hunit ((hstep.scope.auxMultipliers hwhole).trans hmax)
    rw [(hstep.sound hmax hunit hmeaning hsatisfies).auxMultipliers hwhole] at hdenotes
    exact hdenotes

section Whole

variable (h : before.Scoped) (hconstant : before.constants.get? denominator = some constant)
  (hthree : 3 ≤ denominator) (hlog : (denominator - 1).log2 < denominator.log2)

include h hconstant hthree hlog

theorem below_doubleTop : (doubleTop constant denominator).Below before.counter := by
  refine Formula.below_clause fun literal hliteral => ?_
  simp only [List.mem_cons, List.not_mem_nil, or_false, or_self] at hliteral
  obtain ⟨hpos, -, hscope⟩ := h.constants hconstant
  rw [hliteral, Int.natAbs_natCast, top_eq hpos hlog]
  exact hscope hthree

/-- The last variable of the chain carries one half. -/
theorem denotes_doubleTop (hmax : before.counter ≤ variableMax) (hmeaning : before.Meaning valuation) :
    (doubleTop constant denominator).Denotes valuation 1 := by
  obtain ⟨hpos, -, hscope⟩ := h.constants hconstant
  have hlast := (hmeaning.constants hconstant).2 hthree (denominator - 1).log2 le_rfl
  have hpow : (2 : ℚ) ^ (denominator - 1).log2 + 2 ^ (denominator - 1).log2 = denominator := by
    have hnat := pow_log2_eq hpos hlog
    rw [log2_pred_add_one hpos hlog, pow_succ] at hnat
    have hcast : ((2 ^ (denominator - 1).log2 * 2 : Nat) : ℚ) = denominator := congrArg Nat.cast hnat
    push_cast at hcast
    linarith
  have hposq : (0 : ℚ) < denominator := by exact_mod_cast hpos
  have hhalf : (2 : ℚ) ^ (denominator - 1).log2 * (1 / denominator) = 1 / 2 := by
    rw [mul_one_div, div_eq_div_iff hposq.ne' two_ne_zero]
    linarith
  have hclause := Formula.denotes_clause valuation
    [((constant + denominator.log2 : Nat) : Int), (constant + denominator.log2 : Nat)]
  rw [Subformula.clauseSum, List.map_cons, List.map_singleton, List.sum_cons, List.sum_singleton,
    top_eq hpos hlog, Subformula.literalDegree_natCast ((hscope hthree).trans hmax), hlast,
    hhalf] at hclause
  norm_num at hclause
  rw [doubleTop, top_eq hpos hlog]
  exact hclause

theorem holds_doubleTop_iff {index : Nat} (hcounter : before.counter ≤ variableMax) (hmax : index ≤ variableMax)
    (hunit : UnitValued valuation) (hmeaning : before.Meaning valuation) :
    ((Formula.atom index).equivalent (doubleTop constant denominator)).Holds valuation ↔ valuation index = 1 :=
  Formula.holds_equivalent_iff hunit (Formula.denotes_atom hunit hmax)
    (denotes_doubleTop h hconstant hthree hlog hcounter hmeaning)

/-- The whole of a denominator is handed out with its binding to the chain. -/
theorem step_whole :
    Step before { before with
        counter := before.counter + 1
        auxMultipliers := before.auxMultipliers.insert denominator (before.counter + 1) }
      [(Formula.atom (before.counter + 1)).equivalent (doubleTop constant denominator)] := by
  have hholds : before.counter + 1 ≤ variableMax → ∀ {valuation}, UnitValued valuation → before.Meaning valuation →
      (((Formula.atom (before.counter + 1)).equivalent (doubleTop constant denominator)).Holds valuation ↔
        valuation (before.counter + 1) = 1) :=
    fun hmax => holds_doubleTop_iff h hconstant hthree hlog ((Nat.le_succ _).trans hmax) hmax
  refine .of_sound h (Nat.le_succ _) ⟨(h.advance (Nat.le_succ _)).zero, (h.advance (Nat.le_succ _)).constants, ?_⟩
    ?_ ?_ ?_
  · intro other found hfound
    rw [Memo.get?_insert] at hfound
    split_ifs at hfound with heq
    · cases hfound
      exact le_rfl
    · exact (h.auxMultipliers hfound).trans (Nat.le_succ _)
  · intro hmax valuation hunit hmeaning hsatisfies
    refine ⟨hmeaning.constants, fun {other found} hfound => ?_⟩
    rw [Memo.get?_insert] at hfound
    split_ifs at hfound with heq
    · cases hfound
      exact (hholds hmax hunit hmeaning).mp (Formula.satisfies_singleton.mp hsatisfies)
    · exact hmeaning.auxMultipliers hfound
  · intro formula hformula
    cases List.mem_singleton.mp hformula
    exact (Formula.below_atom le_rfl).push ((below_doubleTop h hconstant hthree hlog).mono (Nat.le_succ _)) _
  · intro hmax valuation hunit hmeaning
    obtain ⟨extended, hunit', hagree, -, hvalue⟩ := (Step.refl (h.advance (Nat.le_succ _))).exists_assigned h
      hmax hunit hmeaning zero_le_one le_rfl
    refine ⟨extended, hunit', hagree, Formula.satisfies_singleton.mpr ?_⟩
    exact (hholds hmax hunit' (hmeaning.congr h hagree)).mpr hvalue

/-- The whole of a denominator is remembered once it is handed out. -/
theorem exists_wholeMultiple_eq :
    ∃ modsat after, (wholeMultiple constant denominator).Returns before modsat after ∧
      Encodes before after modsat fun _ => 1 := by
  rcases haux : before.auxMultipliers.get? denominator with _ | index
  · have hwhole := (Memo.get?_insert before.auxMultipliers denominator (before.counter + 1) denominator).trans
      (if_pos rfl)
    exact ⟨_, _, returns_bind.mpr ⟨_, _, returns_lift.mpr (run_auxMultiplier_of_none haux), returns_pure _ _⟩,
      encodes_whole (step_whole h hconstant hthree hlog) hwhole⟩
  · exact ⟨_, _, returns_bind.mpr ⟨_, _, returns_lift.mpr (run_auxMultiplier_of_some haux), returns_pure _ _⟩,
      encodes_whole (.refl h) haux⟩

end Whole

/-- A multiple of a constant's variable has the multiple of its unit fraction. -/
theorem exists_multiple_constant_eq (h : before.Scoped)
    (hconstant : before.constants.get? denominator = some constant) (numerator : Nat) :
    ∃ modsat after, (multiple numerator (.atom constant)).run before = (modsat, after) ∧
      Encodes before after modsat fun _ => min (numerator / denominator) 1 := by
  obtain ⟨-, hindex, -⟩ := h.constants hconstant
  obtain ⟨modsat, after, hmultiple, hstep⟩ := exists_multiple_eq h numerator
    (Formula.total_atom constant) (Formula.below_atom hindex)
  refine ⟨modsat, after, hmultiple, ⟨hstep.toStep, hstep.total, hstep.phi_below, ?_⟩⟩
  intro hmax valuation hunit hmeaning hsatisfies
  have hatom := Formula.denotes_atom hunit ((hindex.trans hstep.counter_le).trans hmax)
  have hdenotes := hstep.denotes hmax hunit hsatisfies hatom
  rw [(hmeaning.constants hconstant).1, mul_one_div] at hdenotes
  exact hdenotes

/-- The chain behind a constant is read without a step. -/
theorem encodes_bitClause (h : before.Scoped) (hconstant : before.constants.get? denominator = some constant)
    (hthree : 3 ≤ denominator) (hlog : numerator.log2 ≤ (denominator - 1).log2) :
    Encodes before before (.ofFormula (bitClause (constant + 1) numerator))
      fun _ => min (numerator / denominator) 1 := by
  have hbound : constant + 1 + numerator.log2 ≤ before.counter := by
    have := (h.constants hconstant).2.2 hthree
    omega
  refine ⟨.refl h, Formula.total_clause _, below_bitClause hbound, ?_⟩
  intro hmax valuation hunit hmeaning _
  have hdenotes := denotes_bitClause (hbound.trans hmax) (div_nonneg zero_le_one (Nat.cast_nonneg denominator))
    (((hmeaning.constants hconstant).2 hthree).mono hlog)
  rw [mul_one_div] at hdenotes
  exact hdenotes

theorem returns_multiplyConstant {modsat : Modsat} (hconstant : before.constants.get? denominator = some constant) :
    (multiplyConstant numerator denominator).Returns before modsat after ↔
      (if denominator ≤ 2 then liftM (multiple numerator (.atom constant))
        else if numerator = 0 then do pure (.ofFormula (← zeroFormula))
        else if numerator.log2 ≤ (denominator - 1).log2 then
          pure (.ofFormula (bitClause (constant + 1) numerator))
        else if numerator = denominator then wholeMultiple constant denominator
        else fail (.exceedsOne numerator denominator) : Encoding Modsat).Returns before modsat after := by
  rw [multiplyConstant, returns_bind]
  constructor
  · rintro ⟨_, _, hget, hreturns⟩
    obtain ⟨rfl, rfl⟩ := hget.unique (returns_get before)
    rw [hconstant] at hreturns
    exact hreturns
  · intro hreturns
    refine ⟨before, before, returns_get before, ?_⟩
    rw [hconstant]
    exact hreturns

/-- Only constants that are remembered are multiplied. -/
theorem exists_get?_of_multiplyConstant {modsat : Modsat}
    (hrun : (multiplyConstant numerator denominator).Returns before modsat after) :
    ∃ constant, before.constants.get? denominator = some constant := by
  obtain ⟨_, _, hget, hnext⟩ := returns_bind.mp hrun
  cases hget
  cases hconstant : before.constants.get? denominator with
  | none =>
      rw [hconstant] at hnext
      cases hnext
  | some constant => exact ⟨constant, rfl⟩

/-- The multiple of a unit fraction that its chain reaches, cut off at one. -/
theorem exists_multiplyConstant_eq (h : before.Scoped)
    (hconstant : before.constants.get? denominator = some constant)
    (hreach : denominator ≤ 2 ∨ numerator.log2 ≤ (denominator - 1).log2 ∨ numerator = denominator) :
    ∃ modsat after, (multiplyConstant numerator denominator).Returns before modsat after ∧
      Encodes before after modsat fun _ => min (numerator / denominator) 1 := by
  simp only [returns_multiplyConstant hconstant]
  by_cases htwo : denominator ≤ 2
  · simp only [if_pos htwo]
    obtain ⟨modsat, after, hmultiple, hencodes⟩ := exists_multiple_constant_eq h hconstant numerator
    exact ⟨modsat, after, returns_lift.mpr hmultiple, hencodes⟩
  have hthree : 3 ≤ denominator := not_le.mp htwo
  by_cases hzero : numerator = 0
  · simp only [if_neg htwo, if_pos hzero]
    obtain ⟨index, after, hzeroRun, hstep, hpos, hle⟩ := exists_zeroFormula_eq h
    refine ⟨.ofFormula (zeroOf index), after, returns_ofFormula_zeroFormula.mpr ⟨_, returns_lift.mpr hzeroRun, rfl⟩,
      encodes_zeroOf hstep hpos hle fun _ => ?_⟩
    rw [hzero, Nat.cast_zero, zero_div, min_eq_left zero_le_one]
  by_cases hlog : numerator.log2 ≤ (denominator - 1).log2
  · simp only [if_neg htwo, if_neg hzero, if_pos hlog]
    exact ⟨_, before, returns_pure _ _, encodes_bitClause h hconstant hthree hlog⟩
  · obtain rfl : numerator = denominator := (hreach.resolve_left htwo).resolve_left hlog
    simp only [if_neg htwo, if_neg hzero, if_neg hlog, if_true]
    obtain ⟨modsat, after, hwhole, hencodes⟩ := exists_wholeMultiple_eq h hconstant hthree (not_le.mp hlog)
    refine ⟨modsat, after, hwhole, ⟨hencodes.toStep, hencodes.total, hencodes.phi_below, ?_⟩⟩
    rw [div_self (Nat.cast_ne_zero.mpr (h.constants hconstant).1.ne'), min_self]
    exact hencodes.denotes

/-- A chain reaches every multiple up to the whole. -/
theorem reach_of_le (h : numerator ≤ denominator) :
    denominator ≤ 2 ∨ numerator.log2 ≤ (denominator - 1).log2 ∨ numerator = denominator := by
  rcases h.lt_or_eq with hlt | heq
  · exact Or.inr (Or.inl (log2_mono (Nat.le_sub_one_of_lt hlt)))
  · exact Or.inr (Or.inr heq)

end Encoding

end ReluLogic
