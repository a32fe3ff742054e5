import ReluLogic.Proofs.Encoding.Constant

/-!
Defining formulas determine their variables. Two valuations with the same inputs that satisfy what was returned so
far agree on every variable of the formulas, except the zero variable, on which nothing depends: a constant and its
chain have fixed values, and the chain of a multiple repeats the degree of its term.
-/

namespace ReluLogic

namespace Allocator

/-- Two valuations with the same inputs in which all that is remembered has its value. -/
structure Twins (allocator : Allocator) (inputs : Nat) (v w : Nat → ℚ) : Prop where
  left_unit : UnitValued v
  right_unit : UnitValued w
  left : allocator.Meaning v
  right : allocator.Meaning w
  inputs_eq : ∀ input ≤ inputs, input ≠ 0 → v input = w input

/-- Two valuations agree on a variable, unless it is the zero variable. -/
def Agree (zero : Option Nat) (v w : Nat → ℚ) (index : Nat) : Prop :=
  zero = some index ∨ v index = w index

/-- A step whose defining formulas determine the variables of some formulas. -/
structure Settles (inputs : Nat) (before after : Allocator) (defining formulas : List Formula) : Prop
    extends Step before after defining where
  zero_eq : ∀ {index}, before.zero = some index → after.zero = some index
  within : after.counter ≤ variableMax → ∀ ⦃v w⦄, before.Twins inputs v w → Formula.Satisfies v defining →
    Formula.Satisfies w defining → ∀ formula ∈ formulas, formula.Within (Agree after.zero v w)

variable {inputs : Nat} {first second third : Allocator} {defining more formulas others : List Formula}
  {v w : Nat → ℚ}

theorem Twins.after (h : first.Twins inputs v w) (hstep : Step first second defining)
    (hmax : second.counter ≤ variableMax) (hv : Formula.Satisfies v defining) (hw : Formula.Satisfies w defining) :
    second.Twins inputs v w :=
  ⟨h.left_unit, h.right_unit, hstep.sound hmax h.left_unit h.left hv, hstep.sound hmax h.right_unit h.right hw,
    h.inputs_eq⟩

/-- What both valuations have in common by their meaning, they agree on. -/
theorem Twins.agree (h : first.Twins inputs v w) {zero : Option Nat} {index : Nat} (value : ℚ)
    (hvalue : ∀ valuation, UnitValued valuation → first.Meaning valuation → valuation index = value) :
    Agree zero v w index :=
  Or.inr ((hvalue v h.left_unit h.left).trans (hvalue w h.right_unit h.right).symm)

/-- The variables behind a constant repeat its doubled multiples. -/
theorem Twins.agree_chain (h : first.Twins inputs v w) {denominator constant step : Nat}
    (hconstant : first.constants.get? denominator = some constant) (hthree : 3 ≤ denominator)
    (hstep : step ≤ (denominator - 1).log2) {zero : Option Nat} : Agree zero v w (constant + 1 + step) :=
  h.agree (min (2 ^ step * (1 / denominator)) 1) fun _ _ hmeaning =>
    (hmeaning.constants hconstant).2 hthree step hstep

namespace Settles

theorem of_step (h : Step first second []) (hzero : first.zero = second.zero) :
    Settles inputs first second [] [] where
  toStep := h
  zero_eq heq := hzero.symm.trans heq
  within _ _ _ _ _ _ _ hmem := absurd hmem List.not_mem_nil

theorem trans (h : Settles inputs first second defining formulas) (h' : Settles inputs second third more others) :
    Settles inputs first third (defining ++ more) (formulas ++ others) where
  toStep := h.toStep.trans h'.toStep
  zero_eq hzero := h'.zero_eq (h.zero_eq hzero)
  within hmax v w htwins hv hw := by
    obtain ⟨hv, hv'⟩ := Formula.satisfies_append.mp hv
    obtain ⟨hw, hw'⟩ := Formula.satisfies_append.mp hw
    have hmax' := h'.counter_le.trans hmax
    refine List.forall_mem_append.mpr ⟨fun formula hformula => ?_,
      h'.within hmax (htwins.after h.toStep hmax' hv hw) hv' hw'⟩
    exact (h.within hmax' htwins hv hw formula hformula).mono fun index hindex => hindex.imp_left h'.zero_eq

theorem mono (h : Settles inputs first second defining formulas) (hsubset : others ⊆ formulas) :
    Settles inputs first second defining others :=
  ⟨h.toStep, h.zero_eq, fun hmax _ _ htwins hv hw formula hformula =>
    h.within hmax htwins hv hw formula (hsubset hformula)⟩

theorem behind (h : Settles inputs first second defining defining) {phi : Formula}
    (h' : Settles inputs second third more (phi :: more)) :
    Settles inputs first third (defining ++ more) (phi :: (defining ++ more)) :=
  (h.trans h').mono List.perm_middle.symm.subset

/-- A formula put together from determined ones is determined. -/
theorem compose (h : Settles inputs first second defining formulas) (formula : Formula)
    (hcompose : ∀ {P : Nat → Prop}, (∀ part ∈ formulas, part.Within P) → formula.Within P) :
    Settles inputs first second defining (formula :: formulas) where
  toStep := h.toStep
  zero_eq := h.zero_eq
  within hmax _ _ htwins hv hw :=
    have hparts := h.within hmax htwins hv hw
    List.forall_mem_cons.mpr ⟨hcompose hparts, hparts⟩

theorem push {phi psi : Formula} (h : Settles inputs first second defining (phi :: defining))
    (h' : Settles inputs second third more (psi :: more)) (connective : Connective) :
    Settles inputs first third (defining ++ more) (phi.push connective psi :: (defining ++ more)) := by
  refine ((h.trans h').compose (phi.push connective psi) fun hparts => ?_).mono ?_
  · exact (hparts _ List.mem_cons_self).push (hparts _ (List.mem_append_right _ List.mem_cons_self)) connective
  · exact List.cons_subset_cons _ ((List.sublist_cons_self _ _).append (List.sublist_cons_self _ _)).subset

theorem negate {phi : Formula} (h : Settles inputs first second defining (phi :: defining)) :
    Settles inputs first second defining (phi.negate :: defining) :=
  (h.compose phi.negate fun hparts => (hparts _ List.mem_cons_self).negate).mono
    (List.cons_subset_cons _ (List.subset_cons_self _ _))

end Settles

end Allocator

namespace Encoding

open Allocator (Step Encodes Twins Agree Settles)

variable {inputs n numerator denominator constant : Nat} {before middle after : Allocator} {term : Formula}
  {modsat : Modsat} {v w : Nat → ℚ}

/-! ### Zero and multiples -/

theorem settles_zeroFormula (h : before.Scoped) {phi : Formula} (hrun : zeroFormula.run before = (phi, after)) :
    Settles inputs before after [] [phi] := by
  obtain ⟨_, other, hrun', hstep, -⟩ := exists_zeroFormula_eq h
  obtain ⟨index, hphi, hzero, hkept⟩ := run_zeroFormula_eq before
  obtain rfl : after = other := congrArg Prod.snd (hrun.symm.trans hrun')
  rw [hrun] at hphi hzero
  refine ⟨hstep, fun hother => by rw [hzero, hkept _ hother], fun _ _ _ _ _ _ => ?_⟩
  rw [show phi = zeroOf index from hphi]
  exact List.forall_mem_singleton.mpr (within_zeroOf (Or.inl hzero))

theorem zero_multiple (hrun : (multiple n term).run before = (modsat, after)) {index : Nat}
    (hzero : before.zero = some index) : after.zero = some index := by
  obtain ⟨counter, _, constants, auxMultipliers⟩ := before
  cases hzero
  rw [multiple] at hrun
  split_ifs at hrun <;> cases hrun <;> rfl

/-- Two valuations give a term the same degree. -/
structure Alike (term : Formula) (v w : Nat → ℚ) : Prop where
  left_unit : UnitValued v
  right_unit : UnitValued w
  exists_degree : ∃ degree, 0 ≤ degree ∧ degree ≤ 1 ∧ term.Denotes v degree ∧ term.Denotes w degree

theorem Alike.atom {index : Nat} (hindex : index ≤ variableMax) (hv : UnitValued v) (hw : UnitValued w)
    (hsame : v index = w index) : Alike (.atom index) v w where
  left_unit := hv
  right_unit := hw
  exists_degree := ⟨v index, (hv index).1, (hv index).2, Formula.denotes_atom hv hindex,
    hsame ▸ Formula.denotes_atom hw hindex⟩

/-- The new variables of a multiple repeat the degree of the term. -/
theorem agree_multiple (hrun : (multiple n term).run before = (modsat, after)) (hmax : after.counter ≤ variableMax)
    (halike : Alike term v w) (hv : Formula.Satisfies v modsat.defining) (hw : Formula.Satisfies w modsat.defining)
    {index : Nat} (hnew : before.counter < index) (hle : index ≤ after.counter) : Agree after.zero v w index := by
  obtain ⟨degree, hzero, hone, hterm, hterm'⟩ := halike.exists_degree
  by_cases htwo : 2 ≤ n
  · rw [run_multiple_of_two_le htwo] at hrun
    cases hrun
    have hle : index ≤ before.counter + (n.log2 + 1) := hle
    have hbound : before.counter + 1 + n.log2 ≤ variableMax := by
      refine le_trans ?_ hmax
      show before.counter + 1 + n.log2 ≤ before.counter + (n.log2 + 1)
      omega
    obtain ⟨step, rfl⟩ := Nat.exists_eq_add_of_le (show before.counter + 1 ≤ index from hnew)
    have hstep : step ≤ n.log2 := by omega
    refine Or.inr ?_
    calc v (before.counter + 1 + step)
        = min (2 ^ step * degree) 1 :=
          (satisfies_chain_iff halike.left_unit hbound hterm hzero hone).mp hv step hstep
      _ = w (before.counter + 1 + step) :=
          ((satisfies_chain_iff halike.right_unit hbound hterm' hzero hone).mp hw step hstep).symm
  · rw [multiple] at hrun
    split_ifs at hrun with hnone hsingle
    · -- nothing but the zero variable can be new
      obtain ⟨counter, zero, constants, auxMultipliers⟩ := before
      cases zero with
      | some other =>
          cases hrun
          exact absurd hle (not_le.mpr hnew)
      | none =>
          cases hrun
          exact Or.inl (congrArg some (le_antisymm hnew hle))
    · cases hrun
      exact absurd hle (not_le.mpr hnew)
    · omega

/-- A multiple of a term on which two valuations agree has only variables on which they agree. -/
theorem agree_within_multiple (hrun : (multiple n term).run before = (modsat, after))
    (hmax : after.counter ≤ variableMax) (halike : Alike term v w) (hwithin : term.Within (Agree before.zero v w))
    (hv : Formula.Satisfies v modsat.defining) (hw : Formula.Satisfies w modsat.defining) :
    ∀ formula ∈ modsat.phi :: modsat.defining, formula.Within (Agree after.zero v w) := by
  refine List.forall_mem_cons.mpr (within_multiple hrun ?_ ?_ ?_)
  · exact hwithin.mono fun index hindex => hindex.imp_left (zero_multiple hrun)
  · exact fun index hnew hle => agree_multiple hrun hmax halike hv hw hnew hle
  · exact fun _ index hindex => Or.inl hindex

/-- A multiple of a determined term is determined where the inputs determine the degree of the term. -/
theorem settles_multiple {degree : (Nat → ℚ) → ℚ} {defining : List Formula}
    (h : Settles inputs before middle defining (term :: defining))
    (hencodes : Encodes before middle ⟨term, defining⟩ degree)
    (hdegree : ∀ {v w}, before.Twins inputs v w → degree v = degree w)
    (hrun : (multiple n term).run middle = (modsat, after)) :
    Settles inputs before after (defining ++ modsat.defining) (modsat.phi :: (defining ++ modsat.defining)) := by
  obtain ⟨_, _, hrun', hmultiple⟩ := exists_multiple_eq h.scope n hencodes.total hencodes.phi_below
  cases hrun.symm.trans hrun'
  refine ⟨h.toStep.trans hmultiple.toStep, fun hzero => zero_multiple hrun (h.zero_eq hzero),
    fun hmax v w htwins hv hw => ?_⟩
  obtain ⟨hv, hv'⟩ := Formula.satisfies_append.mp hv
  obtain ⟨hw, hw'⟩ := Formula.satisfies_append.mp hw
  have hmax' := hmultiple.counter_le.trans hmax
  obtain ⟨hterm, hdefining⟩ := List.forall_mem_cons.mp (h.within hmax' htwins hv hw)
  have hdenotes := hencodes.denotes hmax' htwins.left_unit htwins.left hv
  have hdenotes' := hencodes.denotes hmax' htwins.right_unit htwins.right hw
  rw [← hdegree htwins] at hdenotes'
  obtain ⟨value, hzero, hone, hvalue⟩ := hencodes.total htwins.left_unit
  rw [hvalue.unique hdenotes] at hzero hone
  have halike : Alike term v w :=
    ⟨htwins.left_unit, htwins.right_unit, degree v, hzero, hone, hdenotes, hdenotes'⟩
  obtain ⟨hphi, hrest⟩ := List.forall_mem_cons.mp (agree_within_multiple hrun hmax halike hterm hv' hw')
  refine List.forall_mem_cons.mpr ⟨hphi, List.forall_mem_append.mpr ⟨fun formula hformula => ?_, hrest⟩⟩
  exact (hdefining formula hformula).mono fun index hindex => hindex.imp_left (zero_multiple hrun)

/-! ### Constants -/

theorem settles_defineConstant (h : before.Scoped) (hpos : 0 < denominator) {index : Nat} {defining : List Formula}
    (hrun : (defineConstant denominator).Returns before (index, defining) after) :
    Settles inputs before after defining defining := by
  obtain ⟨rest, middle, hmultiple, hdefines⟩ := exists_defines h denominator
  obtain ⟨hresult, rfl⟩ := hrun.unique (returns_defineConstant hpos hmultiple)
  cases hresult
  refine ⟨hdefines.step h hpos, fun hzero => zero_multiple hmultiple hzero, fun hmax v w htwins hv hw => ?_⟩
  have hmax : middle.counter ≤ variableMax := hmax
  obtain ⟨hrest, hbinding⟩ := Formula.satisfies_append.mp hv
  obtain ⟨hrest', hbinding'⟩ := Formula.satisfies_append.mp hw
  have hsame : v (before.counter + 1) = w (before.counter + 1) := by
    calc v (before.counter + 1)
        = 1 / denominator :=
          (hdefines.holds_iff hpos hmax htwins.left_unit hrest).mp (Formula.satisfies_singleton.mp hbinding)
      _ = w (before.counter + 1) :=
          ((hdefines.holds_iff hpos hmax htwins.right_unit hrest').mp
            (Formula.satisfies_singleton.mp hbinding')).symm
  have hatom : ∀ zero, (Formula.atom (before.counter + 1)).Within (Agree zero v w) :=
    fun _ => Formula.within_atom (Or.inr hsame)
  have halike := Alike.atom (hdefines.index_le.trans hmax) htwins.left_unit htwins.right_unit hsame
  obtain ⟨hphi, hdefining⟩ :=
    List.forall_mem_cons.mp (agree_within_multiple hmultiple hmax halike (hatom _) hrest hrest')
  exact List.forall_mem_append.mpr ⟨hdefining, List.forall_mem_singleton.mpr ((hatom _).push hphi.negate _)⟩

theorem settles_constant (h : before.Scoped) (hpos : 0 < denominator) {index : Nat} {defining : List Formula}
    (hrun : (Encoding.constant denominator).Returns before (index, defining) after) :
    Settles inputs before after defining defining := by
  obtain ⟨state, middle, hget, hrun⟩ := returns_bind.mp hrun
  cases hget
  rcases hknown : before.constants.get? denominator with _ | found <;> rw [hknown] at hrun
  · exact settles_defineConstant h hpos hrun
  · cases hrun
    exact .of_step (.refl h) rfl

/-- The whole of a denominator is one, and so are the two ends of the chain that it doubles. -/
theorem settles_wholeMultiple (h : before.Scoped) (hconstant : before.constants.get? denominator = some constant)
    (hthree : 3 ≤ denominator) (hlog : (denominator - 1).log2 < denominator.log2)
    (hrun : (wholeMultiple constant denominator).Returns before modsat after) :
    Settles inputs before after modsat.defining (modsat.phi :: modsat.defining) := by
  obtain ⟨allocation, middle, hallocate, hrun⟩ := returns_bind.mp hrun
  have hallocate := returns_lift.mp hallocate
  rcases haux : before.auxMultipliers.get? denominator with _ | index
  · rw [run_auxMultiplier_of_none haux] at hallocate
    cases hallocate
    cases hrun
    have hstep := step_whole h hconstant hthree hlog
    refine ⟨hstep, fun hzero => hzero, fun hmax v w htwins hv hw => ?_⟩
    have hwhole : ∀ valuation, UnitValued valuation → Allocator.Meaning { before with
          counter := before.counter + 1
          auxMultipliers := before.auxMultipliers.insert denominator (before.counter + 1) } valuation →
        valuation (before.counter + 1) = 1 :=
      fun valuation _ hmeaning => hmeaning.auxMultipliers
        ((Memo.get?_insert before.auxMultipliers denominator (before.counter + 1) denominator).trans (if_pos rfl))
    have hatom : (Formula.atom (before.counter + 1)).Within (Agree before.zero v w) :=
      Formula.within_atom ((htwins.after hstep hmax hv hw).agree 1 hwhole)
    refine List.forall_mem_cons.mpr ⟨hatom, List.forall_mem_singleton.mpr (hatom.push ?_ _)⟩
    refine Formula.within_clause fun literal hliteral => ?_
    simp only [List.mem_cons, List.not_mem_nil, or_false, or_self] at hliteral
    rw [hliteral, Int.natAbs_natCast, top_eq (h.constants hconstant).1 hlog]
    exact htwins.agree_chain hconstant hthree le_rfl
  · rw [run_auxMultiplier_of_some haux] at hallocate
    cases hallocate
    cases hrun
    refine ⟨.refl h, fun hzero => hzero, fun _ v w htwins _ _ => List.forall_mem_singleton.mpr ?_⟩
    exact Formula.within_atom (htwins.agree 1 fun _ _ hmeaning => hmeaning.auxMultipliers haux)

theorem settles_multiplyConstant (h : before.Scoped) (hconstant : before.constants.get? denominator = some constant)
    (hreach : denominator ≤ 2 ∨ numerator.log2 ≤ (denominator - 1).log2 ∨ numerator = denominator)
    (hrun : (multiplyConstant numerator denominator).Returns before modsat after) :
    Settles inputs before after modsat.defining (modsat.phi :: modsat.defining) := by
  obtain ⟨_, _, hrun', hencodes⟩ := exists_multiplyConstant_eq h hconstant hreach
  obtain ⟨rfl, rfl⟩ := hrun.unique hrun'
  rw [returns_multiplyConstant hconstant] at hrun
  split_ifs at hrun with htwo hzero hlog hwhole
  · have hmultiple := returns_lift.mp hrun
    refine ⟨hencodes.toStep, fun hzero => zero_multiple hmultiple hzero, fun hmax v w htwins hv hw => ?_⟩
    have hindex := (h.constants hconstant).2.1.trans (hencodes.counter_le.trans hmax)
    have hsame : v constant = w constant :=
      (htwins.left.constants hconstant).1.trans (htwins.right.constants hconstant).1.symm
    exact agree_within_multiple hmultiple hmax (.atom hindex htwins.left_unit htwins.right_unit hsame)
      (Formula.within_atom (Or.inr hsame)) hv hw
  · obtain ⟨phi, hphi, rfl⟩ := returns_ofFormula_zeroFormula.mp hrun
    exact settles_zeroFormula h (returns_lift.mp hphi)
  · cases hrun
    refine ⟨.refl h, fun hzero => hzero, fun _ v w htwins _ _ => List.forall_mem_singleton.mpr ?_⟩
    exact within_bitClause fun step hstep => htwins.agree_chain hconstant (not_le.mp htwo) (hstep.trans hlog)
  · subst hwhole
    exact settles_wholeMultiple h hconstant (not_le.mp htwo) (not_le.mp hlog) hrun
  · cases hrun

end Encoding

end ReluLogic
