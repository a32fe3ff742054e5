import ReluLogic.Proofs.Encoding.Constant
import ReluLogic.Proofs.Encoding.Returns
import ReluLogic.Proofs.Encoding.Scale

/-!
The value of an encoded piece. A term is its fraction of an input, a group the sum of its terms, and the scaled
difference of the two groups is the affine value cut off to the unit interval. Once the scale is known the
encoding succeeds, so a call that fails has taken no variables.
-/

namespace ReluLogic

namespace Encoding

open Allocator (Step Encodes)

variable {inputs : Nat} {before after : Allocator} {valuation : Nat → ℚ}

/-! ### Terms of inputs -/

/-- A smaller multiple of a variable, read off the chain of a larger one. -/
theorem exists_chainMultiple_eq {numerator denominator : Nat} (index : Nat) (hpos : 0 < numerator)
    (hlt : numerator < denominator) (state : Allocator) :
    ∃ phi, (chainMultiple numerator index).run state = (phi, state) ∧ phi.Total ∧
      phi.Within (fun other => index ≤ other ∧ other ≤ index + 1 + denominator.log2) ∧
      ∀ {valuation}, UnitValued valuation → index + 1 + denominator.log2 ≤ variableMax →
        Chained valuation (index + 1) denominator.log2 (valuation index) →
          phi.Denotes valuation (min (numerator * valuation index) 1) := by
  have hlog : numerator.log2 ≤ denominator.log2 := log2_mono hlt.le
  rw [chainMultiple, if_neg hpos.ne']
  by_cases hone : numerator = 1
  · rw [if_pos hone]
    refine ⟨.atom index, rfl, Formula.total_atom _, Formula.within_atom ⟨le_rfl, by omega⟩, ?_⟩
    intro valuation hunit hmax _
    rw [hone, Nat.cast_one, one_mul, min_eq_left (hunit index).2]
    exact Formula.denotes_atom hunit (by omega)
  · rw [if_neg hone]
    refine ⟨bitClause (index + 1) numerator, rfl, Formula.total_clause _,
      within_bitClause fun _ hstep => ⟨by omega, by omega⟩, ?_⟩
    intro valuation hunit hmax hchained
    exact denotes_bitClause (by omega) (hunit index).1 (hchained.mono hlog)

/-- What the definitions of an input's term say: the variable is the input over the denominator. -/
theorem eq_div_of_min_eq {denominator : Nat} (hpos : 0 < denominator) {part whole : ℚ}
    (hwhole : min (denominator * part) 1 = whole) (hpart : part ≤ 1 / denominator) : part = whole / denominator := by
  have hposq : (0 : ℚ) < denominator := by exact_mod_cast hpos
  rw [le_div_iff₀ hposq] at hpart
  rw [min_eq_left (by linarith)] at hwhole
  rw [eq_div_iff hposq.ne', ← hwhole, mul_comm]

variable {term : ScaledTerm} {constant : Nat}

/-- The variable behind the counter is the unit of an input's term. There is a multiple of it for the whole of the
input, and the formula of the term is a multiple of it as well. -/
structure Splits (before after : Allocator) (term : ScaledTerm) (whole : Modsat) (phi : Formula) : Prop
    extends Multiplies { before with counter := before.counter + 1 } after term.denominator
      (.atom (before.counter + 1)) whole where
  whole_run : (multiple term.denominator (.atom (before.counter + 1))).run
    { before with counter := before.counter + 1 } = (whole, after)
  constants_eq : after.constants = before.constants
  auxMultipliers_eq : after.auxMultipliers = before.auxMultipliers
  part_total : phi.Total
  part_within : phi.Within fun index => before.counter < index ∧ index ≤ after.counter
  part_denotes : after.counter ≤ variableMax → ∀ {valuation}, UnitValued valuation →
    Formula.Satisfies valuation whole.defining →
      phi.Denotes valuation (min (term.numerator * valuation (before.counter + 1)) 1)

/-- The formulas that bind a unit: its whole is the input, and it is at most the constant. -/
def bindings (term : ScaledTerm) (unit constant : Nat) (whole : Modsat) : List Formula :=
  [whole.phi.equivalent (.atom term.input), (Formula.atom unit).push .implication (.atom constant)]

/-- A term that is at most the whole takes a variable for its unit, with the whole multiple behind it. -/
theorem exists_splits (constant : Nat) (h : before.Scoped) (hpos : 0 < term.numerator)
    (hle : term.numerator ≤ term.denominator) (hmax : term.input ≤ variableMax) (definition : List Formula) :
    ∃ whole phi after, Splits before after term whole phi ∧ (inputTerm term constant definition).Returns before
      ⟨phi, definition ++ whole.defining ++ bindings term (before.counter + 1) constant whole⟩ after := by
  set index := before.counter + 1 with hindex
  have hscoped : Allocator.Scoped { before with counter := index } := h.advance (Nat.le_succ _)
  obtain ⟨whole, after, hrun, hwhole⟩ := exists_multiple_eq hscoped term.denominator
    (Formula.total_atom index) (Formula.below_atom le_rfl)
  have hmemo := run_multiple_constants term.denominator (.atom index) { before with counter := index }
  have hcounter : index ≤ after.counter := hwhole.counter_le
  have hmultiple : (multiple (max term.numerator term.denominator) (.atom index)).run
      { before with counter := index } = (whole, after) := by
    rw [max_eq_right hle]
    exact hrun
  rw [hrun] at hmemo
  rcases hle.lt_or_eq with hlt | heq
  · have htwo : 2 ≤ term.denominator := by omega
    have hwholeRun := run_multiple_of_two_le htwo (.atom index) { before with counter := index }
    obtain ⟨phi, hphi, htotal, hbelow, hdenotes⟩ := exists_chainMultiple_eq index hpos hlt after
    rw [hrun] at hwholeRun
    cases hwholeRun
    have hlast : index + 1 + term.denominator.log2 = index + (term.denominator.log2 + 1) := by omega
    refine ⟨_, phi, _, ⟨hwhole, hrun, hmemo.1, hmemo.2, htotal, ?_, ?_⟩, ?_⟩
    · exact hbelow.mono fun other hother => ⟨hother.1, hother.2.trans hlast.le⟩
    · intro hbound valuation hunit hsatisfies
      refine hdenotes hunit (hlast.le.trans hbound) ?_
      exact (satisfies_chain_iff hunit (hlast.le.trans hbound)
        (Formula.denotes_atom hunit (hcounter.trans hbound)) (hunit index).1 (hunit index).2).mp hsatisfies
    · exact returns_inputTerm.mpr
        ⟨hmax, _, _, _, _, returns_lift.mpr hmultiple, .below hlt (returns_lift.mpr hphi), rfl⟩
  · refine ⟨whole, whole.phi, after, ⟨hwhole, hrun, hmemo.1, hmemo.2, hwhole.total, ?_, ?_⟩, ?_⟩
    · exact (within_multiple hrun (Formula.within_atom ⟨Nat.lt_succ_self _, hcounter⟩)
        (fun other hlt hle => ⟨(Nat.le_succ _).trans_lt hlt, hle⟩) fun hnone => absurd hnone (by omega)).1
    · intro hbound valuation hunit hsatisfies
      rw [heq]
      exact hwhole.denotes hbound hunit hsatisfies (Formula.denotes_atom hunit (hcounter.trans hbound))
    · exact returns_inputTerm.mpr ⟨hmax, _, _, _, _, returns_lift.mpr hmultiple, .equal heq, rfl⟩

namespace Splits

variable {whole : Modsat} {phi : Formula}

theorem index_le (h : Splits before after term whole phi) : before.counter + 1 ≤ after.counter :=
  h.counter_le

theorem le_counter (h : Splits before after term whole phi) : before.counter ≤ after.counter :=
  (Nat.le_succ _).trans h.index_le

/-- The bindings hold where the unit carries the input over the denominator. -/
theorem satisfies_bindings_iff (h : Splits before after term whole phi) (hscoped : before.Scoped)
    (hconstant : before.constants.get? term.denominator = some constant) (hinput : term.input ≤ variableMax)
    (hmax : after.counter ≤ variableMax) (hunit : UnitValued valuation) (hmeaning : before.Meaning valuation)
    (hwhole : Formula.Satisfies valuation whole.defining) :
    Formula.Satisfies valuation (bindings term (before.counter + 1) constant whole) ↔
      valuation (before.counter + 1) = valuation term.input / term.denominator := by
  obtain ⟨hpos, hscope, -⟩ := hscoped.constants hconstant
  have hposq : (0 : ℚ) < term.denominator := by exact_mod_cast hpos
  have hindexDenotes := Formula.denotes_atom hunit (h.index_le.trans hmax)
  have hconstantDenotes := Formula.denotes_atom hunit ((hscope.trans h.le_counter).trans hmax)
  rw [(hmeaning.constants hconstant).1] at hconstantDenotes
  rw [Formula.Satisfies, bindings, List.forall_mem_cons, List.forall_mem_singleton,
    Formula.holds_equivalent_iff hunit (h.denotes hmax hunit hwhole hindexDenotes)
      (Formula.denotes_atom hunit hinput), Formula.holds_implication_iff hunit hindexDenotes hconstantDenotes]
  constructor
  · rintro ⟨hvalue, hpart⟩
    exact eq_div_of_min_eq hpos hvalue hpart
  · intro heq
    rw [heq, mul_div_cancel₀ _ hposq.ne']
    exact ⟨min_eq_left (hunit _).2, div_le_div_of_nonneg_right (hunit _).2 hposq.le⟩

/-- The input over the denominator, for the unit, extends to the variables of the whole. -/
theorem exists_value (h : Splits before after term whole phi) (hscoped : before.Scoped)
    (hpos : 0 < term.denominator) (hmax : after.counter ≤ variableMax) (hunit : UnitValued valuation)
    (hmeaning : before.Meaning valuation) :
    ∃ extended, UnitValued extended ∧ (∀ index ≤ before.counter, extended index = valuation index) ∧
      Formula.Satisfies extended whole.defining ∧
        extended (before.counter + 1) = valuation term.input / term.denominator := by
  have hone : (1 : ℚ) ≤ term.denominator := by exact_mod_cast hpos
  have hle : valuation term.input / term.denominator ≤ 1 :=
    (div_le_one (zero_lt_one.trans_le hone)).mpr ((hunit _).2.trans hone)
  exact h.toStep.exists_assigned hscoped hmax hunit hmeaning (div_nonneg (hunit _).1 (zero_le_one.trans hone)) hle

theorem step (h : Splits before after term whole phi) (hscoped : before.Scoped)
    (hconstant : before.constants.get? term.denominator = some constant) (hinput : term.input ≤ variableMax)
    (hbefore : term.input ≤ before.counter) :
    Step before after (whole.defining ++ bindings term (before.counter + 1) constant whole) := by
  obtain ⟨hpos, hscope, -⟩ := hscoped.constants hconstant
  refine .of_sound hscoped h.le_counter h.scope ?_ ?_ ?_
  · intro _ valuation _ hmeaning _
    exact ⟨fun {_ _} hfound => hmeaning.constants (h.constants_eq ▸ hfound),
      fun {_ _} hfound => hmeaning.auxMultipliers (h.auxMultipliers_eq ▸ hfound)⟩
  · refine List.forall_mem_append.mpr ⟨h.below, List.forall_mem_cons.mpr ⟨?_, List.forall_mem_singleton.mpr ?_⟩⟩
    · exact h.phi_below.push (Formula.below_atom (hbefore.trans h.le_counter)) _
    · exact (Formula.below_atom h.index_le).push (Formula.below_atom (hscope.trans h.le_counter)) _
  · intro hmax valuation hunit hmeaning
    obtain ⟨extended, hunit', hagree, hwhole, hvalue⟩ := h.exists_value hscoped hpos hmax hunit hmeaning
    refine ⟨extended, hunit', hagree, Formula.satisfies_append.mpr ⟨hwhole, ?_⟩⟩
    refine (h.satisfies_bindings_iff hscoped hconstant hinput hmax hunit' (hmeaning.congr hscoped hagree)
      hwhole).mpr ?_
    rw [hvalue, hagree _ hbefore]

/-- The formula of the term is its fraction of the input. -/
theorem encodes (h : Splits before after term whole phi) (hscoped : before.Scoped)
    (hconstant : before.constants.get? term.denominator = some constant)
    (hle : term.numerator ≤ term.denominator) (hne : term.input ≠ 0) (hinput : term.input ≤ variableMax)
    (hbefore : term.input ≤ before.counter) :
    Encodes before after ⟨phi, whole.defining ++ bindings term (before.counter + 1) constant whole⟩
      term.share where
  toStep := h.step hscoped hconstant hinput hbefore
  total := h.part_total
  phi_below := Formula.below_iff_within.mpr (h.part_within.mono fun _ hindex => hindex.2)
  denotes hmax valuation hunit hmeaning hsatisfies := by
    obtain ⟨hwhole, hbindings⟩ := Formula.satisfies_append.mp hsatisfies
    have hvalue := (h.satisfies_bindings_iff hscoped hconstant hinput hmax hunit hmeaning hwhole).mp hbindings
    have hposq : (0 : ℚ) < term.denominator := by exact_mod_cast (hscoped.constants hconstant).1
    have hshare : term.share valuation = term.numerator * valuation (before.counter + 1) := by
      rw [ScaledTerm.share, ScaledTerm.ratio, ScaledTerm.reads, if_neg hne, hvalue]
      ring
    have hone : term.share valuation ≤ 1 := by
      refine (term.share_le_ratio hunit).trans ((div_le_one hposq).mpr ?_)
      exact_mod_cast hle
    have hphi := h.part_denotes hmax hunit hwhole
    rw [← hshare, min_eq_left hone] at hphi
    exact hphi

end Splits

/-- The term of an input is its fraction of the input. -/
theorem exists_inputTerm_eq (h : before.Scoped) (hconstant : before.constants.get? term.denominator = some constant)
    (hpos : 0 < term.numerator) (hle : term.numerator ≤ term.denominator) (hinput : term.input ≠ 0)
    (hbefore : term.input ≤ before.counter) (hmax : term.input ≤ variableMax) (definition : List Formula) :
    ∃ phi defining after,
      (inputTerm term constant definition).Returns before ⟨phi, definition ++ defining⟩ after ∧
        Encodes before after ⟨phi, defining⟩ term.share := by
  obtain ⟨whole, phi, after, hsplits, hreturns⟩ := exists_splits constant h hpos hle hmax definition
  rw [List.append_assoc] at hreturns
  exact ⟨phi, _, after, hreturns, hsplits.encodes h hconstant hle hinput hmax hbefore⟩

/-- The part of a term is its share. -/
theorem exists_termPart_eq (h : before.Scoped) (hden : 0 < term.denominator) (hpos : 0 < term.numerator)
    (hle : term.numerator ≤ term.denominator) (hbefore : term.input ≤ before.counter)
    (hmax : term.input ≤ variableMax) :
    ∃ phi defining after, (termPart term).Returns before ⟨phi, defining⟩ after ∧
      Encodes before after ⟨phi, defining⟩ term.share := by
  have hdenq : (0 : ℚ) < term.denominator := by exact_mod_cast hden
  obtain ⟨index, definition, middle, hconstant, hstep, hget⟩ := exists_constant_eq h hden
  by_cases hinput : term.input = 0
  · obtain ⟨product, after, hproduct, hencodes⟩ :=
      exists_multiplyConstant_eq hstep.scope hget (reach_of_le hle)
    have hvalue : term.share = fun _ => min ((term.numerator : ℚ) / term.denominator) 1 := by
      funext valuation
      have hratio : (term.numerator : ℚ) / term.denominator ≤ 1 := (div_le_one hdenq).mpr (by exact_mod_cast hle)
      rw [ScaledTerm.share, ScaledTerm.reads, if_pos hinput, mul_one, min_eq_left hratio, ScaledTerm.ratio]
    rw [hvalue]
    exact ⟨product.phi, definition ++ product.defining, after, returns_termPart.mpr
      ⟨index, definition, middle, hconstant, Or.inl ⟨hinput, product, hproduct, rfl⟩⟩, hencodes.behind hstep⟩
  · obtain ⟨phi, defining, after, hterm, hencodes⟩ :=
      exists_inputTerm_eq hstep.scope hget hpos hle hinput (hbefore.trans hstep.counter_le) hmax definition
    exact ⟨phi, definition ++ defining, after, returns_termPart.mpr
      ⟨index, definition, middle, hconstant, Or.inr ⟨hinput, hterm⟩⟩, hencodes.behind hstep⟩

/-! ### Groups -/

/-- A group under construction: it is empty, or a formula for the sum of its terms so far. -/
structure Grouped (before after : Allocator) (group : Modsat) (total : (Nat → ℚ) → ℚ) : Prop
    extends Step before after group.defining where
  total_phi : group.phi ≠ .empty → group.phi.Total
  phi_below : group.phi.Below after.counter
  zero_of_empty : group.phi = .empty → ∀ valuation, total valuation = 0
  denotes : group.phi ≠ .empty → after.counter ≤ variableMax → ∀ ⦃valuation⦄, UnitValued valuation →
    before.Meaning valuation → Formula.Satisfies valuation group.defining →
      group.phi.Denotes valuation (total valuation)

theorem Grouped.start (h : before.Scoped) :
    Grouped before before ⟨.empty, []⟩ fun _ => 0 where
  toStep := .refl h
  total_phi hne := absurd rfl hne
  phi_below := Formula.below_empty
  zero_of_empty _ _ := rfl
  denotes hne := absurd rfl hne

theorem ne_empty_of_denotes {formula : Formula} {degree : ℚ} (h : formula.Denotes valuation degree) :
    formula ≠ .empty := by
  rintro rfl
  exact Bool.noConfusion h.isEmpty_eq

/-- The strong disjunction adds the share of one more term, which stays within the whole. -/
theorem Grouped.add {middle : Allocator} {group : Modsat} {total share : (Nat → ℚ) → ℚ} {phi : Formula}
    {defining : List Formula} (h : Grouped before middle group total)
    (hpart : Encodes middle after ⟨phi, defining⟩ share)
    (hsum : ∀ valuation, UnitValued valuation → total valuation + share valuation ≤ 1) :
    Grouped before after ⟨group.phi.push .strongDisjunction phi, group.defining ++ defining⟩
      (fun valuation => total valuation + share valuation) ∧
        group.phi.push .strongDisjunction phi ≠ .empty := by
  have hone : UnitValued fun _ => 1 := fun _ => ⟨zero_le_one, le_rfl⟩
  have htotal : (group.phi.push .strongDisjunction phi).Total := by
    by_cases hempty : group.phi = .empty
    · rw [hempty, Formula.push_of_isEmpty rfl]
      exact hpart.total
    · exact (h.total_phi hempty).push hpart.total _
  have hne : group.phi.push .strongDisjunction phi ≠ .empty := by
    obtain ⟨degree, -, -, hdegree⟩ := htotal hone
    exact ne_empty_of_denotes hdegree
  refine ⟨⟨h.toStep.trans hpart.toStep, fun _ => htotal, ?_, fun hempty => absurd hempty hne, ?_⟩, hne⟩
  · exact (h.phi_below.mono hpart.counter_le).push hpart.phi_below _
  · intro _ hmax valuation hunit hmeaning hsatisfies
    obtain ⟨hfirst, hsecond⟩ := Formula.satisfies_append.mp hsatisfies
    have hmax' := hpart.counter_le.trans hmax
    have hphi := hpart.denotes hmax hunit (h.sound hmax' hunit hmeaning hfirst) hsecond
    by_cases hempty : group.phi = .empty
    · rw [hempty, Formula.push_of_isEmpty rfl, h.zero_of_empty hempty, zero_add]
      exact hphi
    · have hdenotes := (h.denotes hempty hmax' hunit hmeaning hfirst).push hunit hphi .strongDisjunction
      rw [Connective.apply_strongDisjunction, min_eq_left (hsum valuation hunit)] at hdenotes
      exact hdenotes

/-- A term of a scaled coefficient over inputs in range. -/
structure Fits (inputs : Nat) (term : ScaledTerm) : Prop where
  denominator_pos : 0 < term.denominator
  numerator_le : term.numerator ≤ term.denominator
  input_le : term.input ≤ inputs
  input_le_max : term.input ≤ variableMax

/-- Terms in range are added to a group one after the other. -/
theorem exists_foldlM_addTerm_eq (hinputs : inputs ≤ before.counter) (terms : List ScaledTerm) :
    ∀ {middle : Allocator} {group : Modsat} {total : (Nat → ℚ) → ℚ}, Grouped before middle group total →
      (∀ term ∈ terms, Fits inputs term) →
      (∀ valuation, UnitValued valuation → total valuation + (terms.map (·.share valuation)).sum ≤ 1) →
        ∃ result after, (terms.foldlM addTerm group).Returns middle result after ∧
          Grouped before after result (fun valuation => total valuation + (terms.map (·.share valuation)).sum) ∧
            (result.phi = .empty → group.phi = .empty ∧ ∀ term ∈ terms, term.numerator = 0) := by
  induction terms with
  | nil =>
      intro middle group total h _ _
      simp only [List.map_nil, List.sum_nil, add_zero]
      exact ⟨group, middle, returns_pure _ _, h, fun hempty =>
        ⟨hempty, fun term hterm => absurd hterm List.not_mem_nil⟩⟩
  | cons term terms ih =>
      intro middle group total h hfits hsum
      obtain ⟨hfit, hrest⟩ := List.forall_mem_cons.mp hfits
      simp only [List.map_cons, List.sum_cons, ← add_assoc] at hsum ⊢
      have hpart : ∀ valuation, UnitValued valuation → total valuation + term.share valuation ≤ 1 := by
        intro valuation hunit
        have hnonneg : 0 ≤ (terms.map (·.share valuation)).sum := by
          refine List.sum_nonneg fun share hshare => ?_
          obtain ⟨other, -, rfl⟩ := List.mem_map.mp hshare
          exact other.share_nonneg hunit
        linarith [hsum valuation hunit]
      by_cases hzero : term.numerator = 0
      · have hshare : ∀ valuation, term.share valuation = 0 := by
          intro valuation
          rw [ScaledTerm.share, ScaledTerm.ratio, hzero, Nat.cast_zero, zero_div, zero_mul]
        simp only [hshare, add_zero] at hsum ⊢
        obtain ⟨result, after, hfold, hgrouped, hempty⟩ := ih h hrest hsum
        have hskipped := returns_addTerm.mpr (Or.inl ⟨hzero, Eq.refl group, Eq.refl middle⟩)
        exact ⟨result, after, returns_bind.mpr ⟨group, middle, hskipped, hfold⟩, hgrouped, fun hresult =>
          ⟨(hempty hresult).1, List.forall_mem_cons.mpr ⟨hzero, (hempty hresult).2⟩⟩⟩
      · obtain ⟨phi, defining, next, hterm, hencodes⟩ := exists_termPart_eq h.scope hfit.denominator_pos
          (Nat.pos_of_ne_zero hzero) hfit.numerator_le ((hfit.input_le.trans hinputs).trans h.counter_le)
          hfit.input_le_max
        obtain ⟨hadded, hne⟩ := h.add hencodes hpart
        obtain ⟨result, after, hfold, hgrouped, hempty⟩ := ih hadded hrest hsum
        exact ⟨result, after, returns_bind.mpr ⟨_, next, returns_addTerm.mpr (Or.inr ⟨hzero, _, hterm, rfl⟩), hfold⟩,
          hgrouped, fun hresult => absurd (hempty hresult).1 hne⟩

/-- A group is the sum of the shares of its terms. -/
theorem exists_group_eq (h : before.Scoped) (hinputs : inputs ≤ before.counter) (terms : List ScaledTerm)
    (hfits : ∀ term ∈ terms, Fits inputs term) (hsum : (terms.map ScaledTerm.ratio).sum ≤ 1) :
    ∃ modsat after, (group terms).Returns before modsat after ∧
      Encodes before after modsat fun valuation => (terms.map (·.share valuation)).sum := by
  have hshares : ∀ valuation, UnitValued valuation → (0 : ℚ) + (terms.map (·.share valuation)).sum ≤ 1 := by
    intro valuation hunit
    rw [zero_add]
    exact (List.sum_le_sum fun term _ => term.share_le_ratio hunit).trans hsum
  by_cases hall : terms.all (·.numerator == 0) = true
  · have hzero : ∀ valuation, (terms.map (·.share valuation)).sum = 0 := by
      intro valuation
      refine List.sum_eq_zero fun share hshare => ?_
      obtain ⟨term, hterm, rfl⟩ := List.mem_map.mp hshare
      have hnumerator : term.numerator = 0 := beq_iff_eq.mp (List.all_eq_true.mp hall term hterm)
      rw [ScaledTerm.share, ScaledTerm.ratio, hnumerator, Nat.cast_zero, zero_div, zero_mul]
    obtain ⟨index, after, hrun, hstep, hpos, hle⟩ := exists_zeroFormula_eq h
    exact ⟨_, after, returns_group.mpr (Or.inl ⟨hall, _, returns_lift.mpr hrun, rfl⟩),
      encodes_zeroOf hstep hpos hle hzero⟩
  · obtain ⟨result, after, hfold, hgrouped, hempty⟩ :=
      exists_foldlM_addTerm_eq hinputs terms (Grouped.start h) hfits hshares
    simp only [zero_add] at hgrouped
    have hne : result.phi ≠ .empty := by
      intro hresult
      refine hall (List.all_eq_true.mpr fun term hterm => ?_)
      exact beq_iff_eq.mpr ((hempty hresult).2 term hterm)
    exact ⟨result, after, returns_group.mpr (Or.inr ⟨hall, hfold⟩),
      ⟨hgrouped.toStep, hgrouped.total_phi hne, hgrouped.phi_below, hgrouped.denotes hne⟩⟩

/-! ### Pieces -/

/-- The scale times what one degree exceeds another by, cut off at one, is the scaled difference cut off. -/
theorem min_mul_sub_eq_clamp {scale p q : ℚ} (hscale : 0 ≤ scale) :
    min (scale * (1 - min (1 - p + q) 1)) 1 = clamp (scale * (p - q)) := by
  rw [clamp, min_comm]
  refine congrArg (min 1) ?_
  rcases le_total p q with h | h
  · rw [min_eq_right (by linarith), sub_self, mul_zero,
      max_eq_left (mul_nonpos_of_nonneg_of_nonpos hscale (sub_nonpos.mpr h))]
  · rw [min_eq_left (by linarith), max_eq_right (mul_nonneg hscale (sub_nonneg.mpr h))]
    ring

/-- Scaled terms give the scale times the difference of their signs, cut off to the unit interval. -/
theorem exists_ofTerms_eq (h : before.Scoped) (hinputs : inputs ≤ before.counter) (scale : Nat)
    (terms : List ScaledTerm) (hfits : ∀ term ∈ terms, Fits inputs term)
    (hpositive : ((terms.filter (!·.negative)).map ScaledTerm.ratio).sum ≤ 1)
    (hnegative : ((terms.filter (·.negative)).map ScaledTerm.ratio).sum ≤ 1) :
    ∃ modsat after, (ofTerms scale terms).Returns before modsat after ∧
      Encodes before after modsat fun valuation =>
        clamp (scale * (((terms.filter (!·.negative)).map (·.share valuation)).sum -
          ((terms.filter (·.negative)).map (·.share valuation)).sum)) := by
  obtain ⟨positive, first, hpositiveRun, hp⟩ := exists_group_eq h hinputs _
    (fun term hterm => hfits term (List.mem_filter.mp hterm).1) hpositive
  obtain ⟨negative, second, hnegativeRun, hn⟩ := exists_group_eq hp.scope (hinputs.trans hp.counter_le) _
    (fun term hterm => hfits term (List.mem_filter.mp hterm).1) hnegative
  have hd := (hp.push hn .implication).negate
  obtain ⟨scaled, after, hscaledRun, hs⟩ := exists_multiple_eq hn.scope scale hd.total hd.phi_below
  refine ⟨⟨scaled.phi, positive.defining ++ negative.defining ++ scaled.defining⟩, after, ?_,
    ⟨hd.toStep.trans hs.toStep, hs.total, hs.phi_below, ?_⟩⟩
  · exact returns_ofTerms.mpr ⟨positive, first, negative, second, scaled, hpositiveRun, hnegativeRun,
      returns_lift.mpr hscaledRun, rfl⟩
  · intro hmax valuation hunit hmeaning hsatisfies
    obtain ⟨hgroups, hscaled⟩ := Formula.satisfies_append.mp hsatisfies
    have hdenotes := hs.denotes hmax hunit hscaled (hd.denotes (hs.counter_le.trans hmax) hunit hmeaning hgroups)
    rw [Connective.apply_implication, min_mul_sub_eq_clamp (Nat.cast_nonneg _)] at hdenotes
    exact hdenotes

/-! ### Coefficients -/

variable {coefficients : List Fraction} {scale : Nat} {terms : List ScaledTerm}

/-- Coefficients that are not all zero have a positive scale. -/
theorem scale_pos (hdens : ∀ coefficient ∈ coefficients, coefficient.den ≠ 0)
    (hnonzero : ¬ coefficients.all Fraction.isZero = true) (h : scaleOf coefficients = .ok scale) : 0 < scale := by
  obtain ⟨hpositive, hnegative⟩ := scaleOf_eq_ok h
  by_contra hzero
  obtain rfl : scale = 0 := Nat.eq_zero_of_not_pos hzero
  rw [Nat.cast_zero] at hpositive hnegative
  refine hnonzero (List.all_eq_true.mpr fun coefficient hcoefficient => ?_)
  have hle : ∀ part : Fraction → ℚ, (∀ other ∈ coefficients, 0 ≤ part other) →
      (coefficients.map part).sum ≤ 0 → part coefficient ≤ 0 := by
    intro part hpart hsum
    refine (List.single_le_sum (fun value hvalue => ?_) _ (List.mem_map_of_mem hcoefficient)).trans hsum
    obtain ⟨other, hother, rfl⟩ := List.mem_map.mp hvalue
    exact hpart other hother
  have hupper := (le_max_left _ _).trans (hle _ (fun _ _ => le_max_right _ _) hpositive)
  have hlower := (le_max_left _ _).trans (hle _ (fun _ _ => le_max_right _ _) hnegative)
  have hvalue : (coefficient.value : ℚ) = 0 := le_antisymm hupper (neg_nonpos.mp hlower)
  have hden : (coefficient.den : ℚ) ≠ 0 := by exact_mod_cast hdens coefficient hcoefficient
  rw [Fraction.value_eq, div_eq_zero_iff, or_iff_left hden] at hvalue
  exact beq_iff_eq.mpr (by exact_mod_cast hvalue)

theorem ratio_le_sum {term : ScaledTerm} (hterm : term ∈ terms) : term.ratio ≤ (terms.map ScaledTerm.ratio).sum := by
  refine List.single_le_sum (fun ratio hratio => ?_) _ (List.mem_map_of_mem hterm)
  obtain ⟨other, -, rfl⟩ := List.mem_map.mp hratio
  exact other.ratio_nonneg

/-- Prepared coefficients: the terms are in range, neither sign exceeds the whole, and the scaled difference of
the signs is the affine value. -/
structure Prepared (inputs scale : Nat) (terms : List ScaledTerm) (coefficients : List Fraction) : Prop where
  fits : ∀ term ∈ terms, Fits inputs term
  positive_le : ((terms.filter (!·.negative)).map ScaledTerm.ratio).sum ≤ 1
  negative_le : ((terms.filter (·.negative)).map ScaledTerm.ratio).sum ≤ 1
  difference_eq : ∀ valuation, scale * (((terms.filter (!·.negative)).map (·.share valuation)).sum -
    ((terms.filter (·.negative)).map (·.share valuation)).sum) = affineFrom 0 valuation coefficients

/-- Prepared terms carry the coefficients over the scale, and neither sign exceeds the whole. -/
theorem scales_of_prepare (hdens : ∀ coefficient ∈ coefficients, coefficient.den ≠ 0)
    (hnonzero : ¬ coefficients.all Fraction.isZero = true) (h : prepare coefficients = .ok (scale, terms)) :
    Scales scale 0 coefficients terms ∧ ((terms.filter (!·.negative)).map ScaledTerm.ratio).sum ≤ 1 ∧
      ((terms.filter (·.negative)).map ScaledTerm.ratio).sum ≤ 1 := by
  obtain ⟨scale, hscale, h⟩ := bind_eq_ok.mp h
  obtain ⟨terms, hterms, h⟩ := bind_eq_ok.mp h
  cases h
  have hpos := scale_pos hdens hnonzero hscale
  have hposq : (0 : ℚ) < scale := by exact_mod_cast hpos
  obtain ⟨hpositive, hnegative⟩ := scaleOf_eq_ok hscale
  have hscales := scales_of_scaledTerms hpos coefficients hdens hterms
  refine ⟨hscales, le_of_mul_le_mul_left ?_ hposq, le_of_mul_le_mul_left ?_ hposq⟩
  · rwa [hscales.positive, mul_one]
  · rwa [hscales.negative, mul_one]

/-- Each prepared term is a fraction of at most one, of an input that has a coefficient. -/
theorem ranges_of_prepare (hdens : ∀ coefficient ∈ coefficients, coefficient.den ≠ 0)
    (hnonzero : ¬ coefficients.all Fraction.isZero = true) (h : prepare coefficients = .ok (scale, terms)) :
    ∀ term ∈ terms, 0 < term.denominator ∧ term.numerator ≤ term.denominator ∧ term.input < coefficients.length := by
  obtain ⟨hscales, hpositive, hnegative⟩ := scales_of_prepare hdens hnonzero h
  intro term hterm
  obtain ⟨hden, -, hlt⟩ := hscales.ranges term hterm
  have hratio : term.ratio ≤ 1 := by
    rcases hneg : term.negative with _ | _
    · exact (ratio_le_sum (List.mem_filter.mpr ⟨hterm, by rw [hneg]; rfl⟩)).trans hpositive
    · exact (ratio_le_sum (List.mem_filter.mpr ⟨hterm, hneg⟩)).trans hnegative
  have hdenq : (0 : ℚ) < term.denominator := by exact_mod_cast hden
  rw [ScaledTerm.ratio, div_le_one hdenq] at hratio
  exact ⟨hden, by exact_mod_cast hratio, by omega⟩

theorem prepare_eq_ok (hdens : ∀ coefficient ∈ coefficients, coefficient.den ≠ 0)
    (hnonzero : ¬ coefficients.all Fraction.isZero = true) (hlength : coefficients.length ≤ inputs + 1)
    (hmax : inputs ≤ variableMax) (h : prepare coefficients = .ok (scale, terms)) :
    Prepared inputs scale terms coefficients := by
  obtain ⟨hscales, hpositive, hnegative⟩ := scales_of_prepare hdens hnonzero h
  refine ⟨fun term hterm => ?_, hpositive, hnegative, hscales.shares⟩
  obtain ⟨hden, hle, hlt⟩ := ranges_of_prepare hdens hnonzero h term hterm
  exact ⟨hden, hle, by omega, by omega⟩

theorem affineFrom_of_all_isZero (valuation : Nat → ℚ) :
    ∀ {input : Nat} {coefficients : List Fraction}, coefficients.all Fraction.isZero = true →
      affineFrom input valuation coefficients = 0 := by
  intro input coefficients h
  induction coefficients generalizing input with
  | nil => rfl
  | cons coefficient coefficients ih =>
      rw [List.all_cons, Bool.and_eq_true] at h
      have hnum : coefficient.num = 0 := beq_iff_eq.mp h.1
      rw [affineFrom, ih h.2, Fraction.value_eq, hnum, Int.cast_zero, zero_div, zero_mul, add_zero]

/-- A call on coefficients either fails before a variable is taken, or encodes the affine value cut off to the unit
interval. -/
theorem encode_cases (h : before.Scoped) (hinputs : inputs ≤ before.counter) (hmax : inputs ≤ variableMax)
    (hdens : ∀ coefficient ∈ coefficients, 0 < coefficient.den) (hlength : coefficients.length ≤ inputs + 1) :
    (∃ error, (encode coefficients).run.run before = (.error error, before)) ∨
      ∃ modsat after, (encode coefficients).Returns before modsat after ∧
        Encodes before after modsat fun valuation => clamp (affineFrom 0 valuation coefficients) := by
  by_cases hzero : coefficients.all Fraction.isZero = true
  · obtain ⟨index, after, hrun, hstep, hpos, hle⟩ := exists_zeroFormula_eq h
    refine Or.inr ⟨_, after, returns_encode.mpr (Or.inl ⟨hzero, _, returns_lift.mpr hrun, rfl⟩),
      encodes_zeroOf hstep hpos hle fun valuation => ?_⟩
    rw [affineFrom_of_all_isZero valuation hzero]
    exact clamp_of_nonpos le_rfl
  · rcases hprepare : prepare coefficients with fault | ⟨scale, terms⟩
    · refine Or.inl ⟨.encoding fault, ?_⟩
      rw [encode, if_neg hzero, hprepare]
      rfl
    · have hprepared := prepare_eq_ok (fun coefficient hmem => (hdens coefficient hmem).ne') hzero hlength hmax hprepare
      obtain ⟨modsat, after, hreturns, hencodes⟩ := exists_ofTerms_eq h hinputs scale terms hprepared.fits
        hprepared.positive_le hprepared.negative_le
      simp only [hprepared.difference_eq] at hencodes
      exact Or.inr ⟨modsat, after, returns_encode.mpr (Or.inr ⟨hzero, scale, terms, hprepare, hreturns⟩), hencodes⟩

end Encoding

end ReluLogic
