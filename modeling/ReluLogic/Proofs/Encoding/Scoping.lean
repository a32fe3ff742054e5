import ReluLogic.Proofs.Encoding.Layout

/-!
Scoping of whole sessions. An allocator serves operations of all kinds in any order, some of which fail. Whatever the
order, nothing is handed out between a constant and its chain, what was handed out once is not handed out again, and
a formula that is returned speaks of inputs and of variables handed out by then.
-/

namespace ReluLogic

/-- A variable is an input or was handed out. -/
def Allocator.Taken (allocator : Allocator) (index : Nat) : Prop :=
  1 ≤ index ∧ index ≤ allocator.counter

namespace Encoding

variable {before middle after : Allocator} {base dim n index constant numerator denominator : Nat} {term : Formula}

/-! ### Variables of formulas -/

theorem Returns.taken {β : Type} {computation : Encoding β} {result : β} {formula : Formula}
    (h : computation.Returns before result after) (hmoves : computation.Moves)
    (hformula : formula.Within before.Taken) : formula.Within after.Taken :=
  hformula.mono fun _ htaken => ⟨htaken.1, htaken.2.trans (h.moves hmoves).counter_le⟩

theorem taken_of_first (h : before.Layout base) (holder : Holder) (hfirst : before.first? holder = some index) :
    before.Taken index :=
  ⟨Nat.one_le_of_lt (h.range (Allocator.reserves_first hfirst)).1, (h.range (Allocator.reserves_first hfirst)).2⟩

/-- The chain behind a constant is taken. -/
theorem taken_of_chain (h : before.Layout base) (hconstant : before.constants.get? denominator = some constant)
    (hthree : 3 ≤ denominator) {step : Nat} (hstep : step ≤ (denominator - 1).log2) :
    before.Taken (constant + 1 + step) := by
  obtain ⟨hlt, hle⟩ := h.range (Allocator.reserves_chain hconstant hthree hstep)
  exact ⟨Nat.one_le_of_lt hlt, hle⟩

theorem taken_zeroFormula (h : before.Layout base) {phi : Formula}
    (hrun : (liftM zeroFormula : Encoding Formula).Returns before phi after) : phi.Within after.Taken := by
  obtain ⟨index, hphi, hzero, -⟩ := run_zeroFormula_eq before
  have hlayout := (hrun.moves moves_zeroFormula).layout h
  rw [returns_lift.mp hrun] at hphi hzero
  cases hphi
  exact within_zeroOf (taken_of_first hlayout .zero hzero)

theorem taken_multiple (h : before.Layout base) (hterm : term.Within before.Taken) {modsat : Modsat}
    (hrun : (liftM (multiple n term) : Encoding Modsat).Returns before modsat after) :
    ∀ formula ∈ modsat.phi :: modsat.defining, formula.Within after.Taken := by
  have hlayout := (hrun.moves (moves_multiple n term)).layout h
  refine List.forall_mem_cons.mpr (within_multiple (returns_lift.mp hrun)
    (hrun.taken (moves_multiple n term) hterm) (fun index hlt hle => ⟨Nat.one_le_of_lt hlt, hle⟩) ?_)
  exact fun _ index hzero => taken_of_first hlayout .zero hzero

/-- A multiple read off a chain speaks of the chain, or of the zero variable. -/
theorem taken_chainMultiple (h : before.Layout base) (hindex : before.Taken index)
    (hchain : 2 ≤ n → ∀ step ≤ n.log2, before.Taken (index + 1 + step)) {phi : Formula}
    (hrun : (liftM (chainMultiple n index) : Encoding Formula).Returns before phi after) :
    phi.Within after.Taken := by
  rw [chainMultiple] at hrun
  split_ifs at hrun with hzero hone
  · exact taken_zeroFormula h hrun
  · cases returns_lift.mp hrun
    exact Formula.within_atom hindex
  · cases returns_lift.mp hrun
    exact within_bitClause (hchain (by omega))

/-- A constant that is returned is remembered, and its definitions speak of taken variables. -/
theorem taken_constant (h : before.Layout base) {result : Nat × List Formula}
    (hrun : (Encoding.constant denominator).Returns before result after) :
    after.constants.get? denominator = some result.1 ∧ ∀ formula ∈ result.2, formula.Within after.Taken := by
  obtain ⟨_, _, hget, hnext⟩ := returns_bind.mp hrun
  cases hget
  rcases hconstant : before.constants.get? denominator with _ | index <;> rw [hconstant] at hnext
  · rcases Nat.eq_zero_or_pos denominator with rfl | hpos
    · cases hnext
    · obtain ⟨rest, middle, hmultiple⟩ : ∃ rest middle,
          (multiple (denominator - 1) (.atom (before.counter + 1))).run
            { before with counter := before.counter + 1 } = (rest, middle) := ⟨_, _, rfl⟩
      obtain ⟨rfl, rfl⟩ := hnext.unique (returns_defineConstant hpos hmultiple)
      have hadvanced : (before.moveTo (before.counter + 1)).Layout base :=
        (Allocator.Move.forward (Nat.le_succ before.counter)).layout h
      have hatom : (Formula.atom (before.counter + 1)).Within
          (before.moveTo (before.counter + 1)).Taken :=
        Formula.within_atom ⟨Nat.le_add_left _ _, le_rfl⟩
      have hreturns := returns_lift.mpr hmultiple
      obtain ⟨hphi, hdefining⟩ := List.forall_mem_cons.mp (taken_multiple hadvanced hatom hreturns)
      refine ⟨(Memo.get?_insert before.constants denominator _ denominator).trans (if_pos rfl),
        List.forall_mem_append.mpr ⟨hdefining, List.forall_mem_singleton.mpr ?_⟩⟩
      exact (hreturns.taken (moves_multiple _ _) hatom).push hphi.negate _
  · cases hnext
    exact ⟨hconstant, fun _ hmem => absurd hmem List.not_mem_nil⟩

/-- The variable of a whole is remembered once it is returned. -/
theorem get?_auxMultiplier {allocation : Allocation}
    (hrun : (liftM (Allocator.auxMultiplier denominator) : Encoding Allocation).Returns before allocation after) :
    after.auxMultipliers.get? denominator = some allocation.index := by
  rcases haux : before.auxMultipliers.get? denominator with _ | index
  · cases (run_auxMultiplier_of_none haux).symm.trans (returns_lift.mp hrun)
    exact (Memo.get?_insert before.auxMultipliers denominator _ denominator).trans (if_pos rfl)
  · cases (run_auxMultiplier_of_some haux).symm.trans (returns_lift.mp hrun)
    exact haux

/-- The whole of a denominator speaks of its variable and, when that is new, of the end of the chain. -/
theorem taken_wholeMultiple (h : before.Layout base)
    (hconstant : before.constants.get? denominator = some constant) (hthree : 3 ≤ denominator)
    (hlog : (denominator - 1).log2 < denominator.log2) {modsat : Modsat}
    (hrun : (wholeMultiple constant denominator).Returns before modsat after) :
    ∀ formula ∈ modsat.phi :: modsat.defining, formula.Within after.Taken := by
  obtain ⟨allocation, _, hallocation, hreturns⟩ := returns_bind.mp hrun
  cases hreturns
  have hmoves := hallocation.moves (moves_auxMultiplier denominator)
  have htop : after.Taken (constant + denominator.log2) := by
    rw [top_eq (by omega) hlog]
    exact taken_of_chain (hmoves.layout h) (hmoves.keeps (.constant denominator) hconstant) hthree le_rfl
  have hwhole : after.Taken allocation.index :=
    taken_of_first (hmoves.layout h) (.auxMultiplier denominator) (get?_auxMultiplier hallocation)
  refine List.forall_mem_cons.mpr ⟨Formula.within_atom hwhole, fun formula hformula => ?_⟩
  split_ifs at hformula
  · cases List.mem_singleton.mp hformula
    refine (Formula.within_atom hwhole).push (Formula.within_clause fun literal hliteral => ?_) _
    simp only [List.mem_cons, List.not_mem_nil, or_false, or_self] at hliteral
    rw [hliteral, Int.natAbs_natCast]
    exact htop
  · exact absurd hformula List.not_mem_nil

theorem taken_multiplyConstant (h : before.Layout base) {modsat : Modsat}
    (hrun : (multiplyConstant numerator denominator).Returns before modsat after) :
    ∀ formula ∈ modsat.phi :: modsat.defining, formula.Within after.Taken := by
  obtain ⟨constant, hconstant⟩ := exists_get?_of_multiplyConstant hrun
  rw [returns_multiplyConstant hconstant] at hrun
  split_ifs at hrun with htwo hzero hlog hwhole
  · exact taken_multiple h (Formula.within_atom (taken_of_first h (.constant denominator) hconstant)) hrun
  · obtain ⟨phi, hphi, rfl⟩ := returns_ofFormula_zeroFormula.mp hrun
    exact List.forall_mem_singleton.mpr (taken_zeroFormula h hphi)
  · cases hrun
    exact List.forall_mem_singleton.mpr (within_bitClause fun step hstep =>
      taken_of_chain h hconstant (not_le.mp htwo) (hstep.trans hlog))
  · subst hwhole
    exact taken_wholeMultiple h hconstant (not_le.mp htwo) (not_le.mp hlog) hrun
  · cases hrun

/-- An input of the network is taken, unless it is beyond the range of variables. -/
theorem taken_input (h : before.Layout (Allocator.ofDim dim).counter) (hne : index ≠ 0) (hle : index ≤ dim)
    (hmax : index ≤ variableMax) : before.Taken index :=
  ⟨Nat.one_le_iff_ne_zero.mpr hne, (le_min hle hmax).trans h.base_le⟩

variable {scaled : ScaledTerm} {scaleds : List ScaledTerm} {modsat : Modsat}

/-- The formulas of an input's term speak of its unit, of the chain behind the unit, of the constant and of the
input. -/
theorem taken_part {unit input : Nat} {definition defining : List Formula} {value whole : Formula}
    (hdefinition : ∀ formula ∈ definition, formula.Within after.Taken)
    (hdefining : ∀ formula ∈ defining, formula.Within after.Taken) (hvalue : value.Within after.Taken)
    (hwhole : whole.Within after.Taken) (hunit : after.Taken unit) (hconstant : after.Taken constant)
    (hinput : after.Taken input) :
    ∀ formula ∈ value :: (definition ++ defining ++ [whole.equivalent (.atom input),
      (Formula.atom unit).push .implication (.atom constant)]), formula.Within after.Taken := by
  refine List.forall_mem_cons.mpr ⟨hvalue, List.forall_mem_append.mpr
    ⟨List.forall_mem_append.mpr ⟨hdefinition, hdefining⟩, List.forall_mem_cons.mpr ⟨?_, ?_⟩⟩⟩
  · exact hwhole.push (Formula.within_atom hinput) _
  · exact List.forall_mem_singleton.mpr ((Formula.within_atom hunit).push (Formula.within_atom hconstant) _)

/-- The chain that a multiple leaves behind its term holds the chains of smaller multiples. -/
theorem taken_behind_multiple {count : Nat} (hle : count ≤ n) (htwo : 2 ≤ count) {modsat : Modsat}
    (hrun : (liftM (multiple n term) : Encoding Modsat).Returns before modsat after) {step : Nat}
    (hstep : step ≤ count.log2) : after.Taken (before.counter + 1 + step) := by
  cases (run_multiple_of_two_le (htwo.trans hle) term before).symm.trans (returns_lift.mp hrun)
  have hlog : step ≤ n.log2 := hstep.trans (log2_mono hle)
  exact ⟨by omega, show before.counter + 1 + step ≤ before.counter + (n.log2 + 1) by omega⟩

/-- A smaller multiple of a unit is read off the chain that the large one leaves behind it, and what the large one
speaks of stays taken. -/
theorem taken_smaller {count : Nat} {large : Modsat} {phi : Formula} (h : before.Layout base)
    (hunit : before.Taken before.counter) (hcount : count ≤ n)
    (hlarge : (liftM (multiple n (.atom before.counter)) : Encoding Modsat).Returns before large middle)
    (hsmall : (liftM (chainMultiple count before.counter) : Encoding Formula).Returns middle phi after) :
    (∀ formula ∈ large.phi :: large.defining, formula.Within after.Taken) ∧ phi.Within after.Taken ∧
      after.Taken before.counter := by
  have hmoves := hlarge.moves (moves_multiple _ _)
  have hmoves' := hsmall.moves (moves_chainMultiple _ _)
  have hmiddle : middle.Taken before.counter := ⟨hunit.1, hmoves.counter_le⟩
  refine ⟨fun formula hformula => ?_, ?_, hmiddle.1, hmiddle.2.trans hmoves'.counter_le⟩
  · exact hsmall.taken (moves_chainMultiple _ _) (taken_multiple h (Formula.within_atom hunit) hlarge formula hformula)
  · exact taken_chainMultiple (hmoves.layout h) hmiddle
      (fun htwo step hstep => taken_behind_multiple hcount htwo hlarge hstep) hsmall

theorem taken_inputTerm (h : before.Layout (Allocator.ofDim dim).counter)
    (hconstant : before.constants.get? scaled.denominator = some constant) (hne : scaled.input ≠ 0)
    (hle : scaled.input ≤ dim) {definition : List Formula}
    (hdefinition : ∀ formula ∈ definition, formula.Within before.Taken) {part : Part}
    (hrun : (inputTerm scaled constant definition).Returns before part after) :
    ∀ formula ∈ part.formula :: part.defining, formula.Within after.Taken := by
  have hmoves := hrun.moves (moves_inputTerm scaled constant definition)
  have hlayout := hmoves.layout h
  have hconstant' : after.Taken constant :=
    taken_of_first hlayout (.constant scaled.denominator) (hmoves.keeps _ hconstant)
  have hdefinition' : ∀ formula ∈ definition, formula.Within after.Taken :=
    fun formula hformula => hrun.taken (moves_inputTerm scaled constant definition) (hdefinition formula hformula)
  obtain ⟨hmax, large, middle, value, whole, hlarge, hreading, rfl⟩ := returns_inputTerm.mp hrun
  have hinput := taken_input hlayout hne hle hmax
  have hfirst : (before.moveTo (before.counter + 1)).Layout (Allocator.ofDim dim).counter :=
    (Allocator.Move.forward (Nat.le_succ before.counter)).layout h
  have hunit : (before.moveTo (before.counter + 1)).Taken (before.counter + 1) := ⟨Nat.le_add_left _ _, le_rfl⟩
  cases hreading with
  | equal =>
      obtain ⟨hphi, hdefining⟩ := List.forall_mem_cons.mp (taken_multiple hfirst (Formula.within_atom hunit) hlarge)
      exact taken_part hdefinition' hdefining hphi hphi
        ⟨hunit.1, (hlarge.moves (moves_multiple _ _)).counter_le⟩ hconstant' hinput
  | below _ hread =>
      obtain ⟨hlargeTaken, hvalue, hunit'⟩ := taken_smaller hfirst hunit (le_max_left _ _) hlarge hread
      obtain ⟨hwhole, hdefining⟩ := List.forall_mem_cons.mp hlargeTaken
      exact taken_part hdefinition' hdefining hvalue hwhole hunit' hconstant' hinput
  | above _ hread =>
      obtain ⟨hlargeTaken, hwhole, hunit'⟩ := taken_smaller hfirst hunit (le_max_right _ _) hlarge hread
      obtain ⟨hvalue, hdefining⟩ := List.forall_mem_cons.mp hlargeTaken
      exact taken_part hdefinition' hdefining hvalue hwhole hunit' hconstant' hinput

theorem taken_termPart (h : before.Layout (Allocator.ofDim dim).counter) (hle : scaled.input ≤ dim) {part : Part}
    (hrun : (termPart scaled).Returns before part after) :
    ∀ formula ∈ part.formula :: part.defining, formula.Within after.Taken := by
  obtain ⟨index, definition, middle, hconstant, hrest⟩ := returns_termPart.mp hrun
  obtain ⟨hget, hdefinition⟩ := taken_constant h hconstant
  have hmiddle := (hconstant.moves (moves_constant _)).layout h
  rcases hrest with ⟨-, product, hproduct, rfl⟩ | ⟨hinput, hterm⟩
  · obtain ⟨hphi, hdefining⟩ := List.forall_mem_cons.mp (taken_multiplyConstant hmiddle hproduct)
    exact List.forall_mem_cons.mpr ⟨hphi, List.forall_mem_append.mpr ⟨fun formula hformula =>
      hproduct.taken (moves_multiplyConstant _ _) (hdefinition formula hformula), hdefining⟩⟩
  · exact taken_inputTerm hmiddle hget hinput hle hdefinition hterm

theorem taken_addTerm (h : before.Layout (Allocator.ofDim dim).counter) (hle : scaled.input ≤ dim) {group : Modsat}
    (hgroup : ∀ formula ∈ group.phi :: group.defining, formula.Within before.Taken)
    (hrun : (addTerm group scaled).Returns before modsat after) :
    ∀ formula ∈ modsat.phi :: modsat.defining, formula.Within after.Taken := by
  rcases returns_addTerm.mp hrun with ⟨-, rfl, rfl⟩ | ⟨-, part, hpart, rfl⟩
  · exact hgroup
  · obtain ⟨hphi, hdefining⟩ := List.forall_mem_cons.mp (taken_termPart h hle hpart)
    obtain ⟨hheld, hheldDefining⟩ := List.forall_mem_cons.mp fun formula hformula =>
      hpart.taken (moves_termPart scaled) (hgroup formula hformula)
    exact List.forall_mem_cons.mpr ⟨hheld.push hphi _, List.forall_mem_append.mpr ⟨hheldDefining, hdefining⟩⟩

theorem taken_foldlM_addTerm (terms : List ScaledTerm) : ∀ {before : Allocator} (group : Modsat),
    before.Layout (Allocator.ofDim dim).counter → (∀ term ∈ terms, term.input ≤ dim) →
      (∀ formula ∈ group.phi :: group.defining, formula.Within before.Taken) →
        (terms.foldlM addTerm group).Returns before modsat after →
          ∀ formula ∈ modsat.phi :: modsat.defining, formula.Within after.Taken := by
  induction terms with
  | nil =>
      intro before group _ _ hgroup hrun
      cases hrun
      exact hgroup
  | cons term terms ih =>
      intro before group h hinputs hgroup hrun
      obtain ⟨hinput, hrest⟩ := List.forall_mem_cons.mp hinputs
      obtain ⟨added, next, hadded, hfold⟩ := returns_bind.mp hrun
      have hlayout := (hadded.moves (moves_addTerm group term)).layout h
      exact ih added hlayout hrest (taken_addTerm h hinput hgroup hadded) hfold

theorem taken_group (h : before.Layout (Allocator.ofDim dim).counter)
    (hinputs : ∀ term ∈ scaleds, term.input ≤ dim) (hrun : (group scaleds).Returns before modsat after) :
    ∀ formula ∈ modsat.phi :: modsat.defining, formula.Within after.Taken := by
  rcases returns_group.mp hrun with ⟨-, phi, hphi, rfl⟩ | ⟨-, hfold⟩
  · exact List.forall_mem_singleton.mpr (taken_zeroFormula h hphi)
  · exact taken_foldlM_addTerm scaleds ⟨.empty, []⟩ h hinputs
      (List.forall_mem_singleton.mpr Formula.within_empty) hfold

theorem taken_ofTerms (h : before.Layout (Allocator.ofDim dim).counter)
    (hinputs : ∀ term ∈ scaleds, term.input ≤ dim) {scale : Nat}
    (hrun : (ofTerms scale scaleds).Returns before modsat after) :
    ∀ formula ∈ modsat.phi :: modsat.defining, formula.Within after.Taken := by
  have hfilter : ∀ sign : ScaledTerm → Bool, ∀ term ∈ scaleds.filter sign, term.input ≤ dim :=
    fun _ term hterm => hinputs term (List.mem_filter.mp hterm).1
  obtain ⟨positive, first, negative, second, multiplied, hpositive, hnegative, hmultiplied, rfl⟩ :=
    returns_ofTerms.mp hrun
  have hfirst := (hpositive.moves (moves_group _)).layout h
  have hsecond := (hnegative.moves (moves_group _)).layout hfirst
  have hleft := fun formula hformula =>
    hnegative.taken (moves_group _) (taken_group h (hfilter _) hpositive formula hformula)
  have hright := taken_group hfirst (hfilter _) hnegative
  obtain ⟨hleftPhi, hleftDefining⟩ := List.forall_mem_cons.mp hleft
  obtain ⟨hrightPhi, hrightDefining⟩ := List.forall_mem_cons.mp hright
  have hdifference := (hleftPhi.push hrightPhi .implication).negate
  obtain ⟨hphi, hdefining⟩ := List.forall_mem_cons.mp (taken_multiple hsecond hdifference hmultiplied)
  have hmoved := moves_multiple scale (positive.phi.push .implication negative.phi).negate
  exact List.forall_mem_cons.mpr ⟨hphi, List.forall_mem_append.mpr ⟨List.forall_mem_append.mpr
    ⟨fun formula hformula => hmultiplied.taken hmoved (hleftDefining formula hformula),
      fun formula hformula => hmultiplied.taken hmoved (hrightDefining formula hformula)⟩, hdefining⟩⟩

/-- Scaled terms stand for the places of their coefficients. -/
theorem input_lt_of_scaledTerms {scale : Nat} (coefficients : List Fraction) :
    ∀ {input : Nat} {terms : List ScaledTerm}, scaledTerms scale input coefficients = .ok terms →
      ∀ term ∈ terms, term.input < input + coefficients.length := by
  induction coefficients with
  | nil =>
      intro input terms h
      cases h
      exact fun _ hmem => absurd hmem List.not_mem_nil
  | cons coefficient coefficients ih =>
      intro input terms h
      obtain ⟨first, hfirst, h⟩ := bind_eq_ok.mp h
      obtain ⟨others, hothers, h⟩ := bind_eq_ok.mp h
      cases h
      rw [ScaledTerm.ofCoefficient] at hfirst
      split_ifs at hfirst
      cases hfirst
      rw [List.length_cons]
      refine List.forall_mem_cons.mpr ⟨Nat.lt_add_of_pos_right (Nat.succ_pos _), fun term hterm => ?_⟩
      have hlt := ih hothers term hterm
      omega

/-- A piece over the inputs of the network is encoded by formulas of taken variables. -/
theorem taken_encode (h : before.Layout (Allocator.ofDim dim).counter) {coefficients : List Fraction}
    (hlength : coefficients.length ≤ dim + 1) (hrun : (encode coefficients).Returns before modsat after) :
    ∀ formula ∈ modsat.phi :: modsat.defining, formula.Within after.Taken := by
  rcases returns_encode.mp hrun with ⟨-, phi, hphi, rfl⟩ | ⟨-, scale, terms, hprepare, hrun⟩
  · exact List.forall_mem_singleton.mpr (taken_zeroFormula h hphi)
  · obtain ⟨_, -, hscaled⟩ := bind_eq_ok.mp hprepare
    obtain ⟨_, hterms, hpair⟩ := bind_eq_ok.mp hscaled
    cases hpair
    refine taken_ofTerms h (fun term hterm => ?_) hrun
    have hlt := input_lt_of_scaledTerms coefficients hterms term hterm
    omega

/-! ### Sessions -/

/-- An operation on an allocator: of an encoder, or of the allocator itself. -/
inductive Operation where
  | zeroFormula
  | constant (denominator : Nat)
  | multiplyConstant (numerator denominator : Nat)
  | encode (coefficients : List Fraction)
  | fresh
  | zeroVariable
  | auxMultiplier (denominator : Nat)
  | jumpTo (target : Nat)
  deriving Repr, DecidableEq

/-- What an operation returns: a variable, or formulas, or both. -/
structure Answer where
  index? : Option Nat
  formulas : List Formula
  deriving Repr, DecidableEq

/-- Moves the counter forward to a target, or fails. -/
def jump (target : Nat) : Encoding Unit := do
  match (← get).jumpTo target with
  | .ok after => set after
  | .error error => throw error

namespace Operation

def perform : Operation → Encoding Answer
  | .zeroFormula => do pure ⟨none, [← Encoding.zeroFormula]⟩
  | .constant denominator => do
    let (index, defining) ← Encoding.constant denominator
    pure ⟨some index, defining⟩
  | .multiplyConstant numerator denominator => do
    let product ← Encoding.multiplyConstant numerator denominator
    pure ⟨none, product.phi :: product.defining⟩
  | .encode coefficients => do
    let modsat ← Encoding.encode coefficients
    pure ⟨none, modsat.phi :: modsat.defining⟩
  | .fresh => do pure ⟨some (← Allocator.fresh), []⟩
  | .zeroVariable => do pure ⟨some (← Allocator.zeroVariable), []⟩
  | .auxMultiplier denominator => do pure ⟨some (← Allocator.auxMultiplier denominator).index, []⟩
  | .jumpTo target => do jump target; pure ⟨none, []⟩

/-- The holder of the variable that an operation returns, if it is to be remembered. -/
def holder? : Operation → Option Holder
  | .constant denominator => some (.constant denominator)
  | .zeroVariable => some .zero
  | .auxMultiplier denominator => some (.auxMultiplier denominator)
  | _ => none

/-- An operation for a network with `dim` inputs: pieces have no more coefficients than a constant term and one
for each input. -/
def Over (dim : Nat) : Operation → Prop
  | .encode coefficients => coefficients.length ≤ dim + 1
  | _ => True

instance (dim : Nat) : DecidablePred (Over dim)
  | .encode coefficients => inferInstanceAs (Decidable (coefficients.length ≤ dim + 1))
  | .zeroFormula | .constant _ | .multiplyConstant _ _ | .fresh | .zeroVariable | .auxMultiplier _ | .jumpTo _ =>
    inferInstanceAs (Decidable True)

end Operation

/-- An operation that was performed, with the states around it and its outcome. -/
structure Event where
  operation : Operation
  before : Allocator
  outcome : Except Error Answer
  after : Allocator

/-- The operations performed in order, whether or not they succeed, with the last state. -/
def session : List Operation → Allocator → List Event × Allocator
  | [], before => ([], before)
  | operation :: rest, before =>
    let (outcome, after) := operation.perform.run.run before
    let (events, final) := session rest after
    (⟨operation, before, outcome, after⟩ :: events, final)

namespace Event

/-- A variable is handed out by an event: it stands above the counter before and not above the counter after. -/
def Allocates (event : Event) (index : Nat) : Prop :=
  event.before.counter < index ∧ index ≤ event.after.counter

end Event

variable {operation : Operation} {answer : Answer} {event : Event} {events : List Event} {final : Allocator}

theorem moves_jump (target : Nat) : (jump target).Moves := by
  intro before
  show before.Moves ((match before.jumpTo target with
    | .ok after => set after
    | .error error => throw error : Encoding Unit).run.run before).2
  rw [Allocator.jumpTo]
  split_ifs with hless
  · exact .refl
  · exact .single (.forward (not_lt.mp hless))

theorem moves_perform (operation : Operation) : operation.perform.Moves := by
  cases operation with
  | zeroFormula => exact moves_zeroFormula.bind fun _ => moves_pure _
  | constant denominator => exact (moves_constant denominator).bind fun _ => moves_pure _
  | multiplyConstant numerator denominator =>
      exact (moves_multiplyConstant numerator denominator).bind fun _ => moves_pure _
  | encode coefficients => exact (moves_encode coefficients).bind fun _ => moves_pure _
  | fresh => exact (moves_freshBlock 1).bind fun _ => moves_pure _
  | zeroVariable => exact moves_zeroVariable.bind fun _ => moves_pure _
  | auxMultiplier denominator => exact (moves_auxMultiplier denominator).bind fun _ => moves_pure _
  | jumpTo target => exact (moves_jump target).bind fun _ => moves_pure _

/-- The formulas that an operation returns speak of taken variables. -/
theorem taken_perform (h : before.Layout (Allocator.ofDim dim).counter) (hover : operation.Over dim)
    (hrun : operation.perform.Returns before answer after) :
    ∀ formula ∈ answer.formulas, formula.Within after.Taken := by
  cases operation with
  | zeroFormula =>
      obtain ⟨phi, _, hphi, hreturns⟩ := returns_bind.mp hrun
      cases hreturns
      exact List.forall_mem_singleton.mpr (taken_zeroFormula h hphi)
  | constant denominator =>
      obtain ⟨result, _, hconstant, hreturns⟩ := returns_bind.mp hrun
      cases hreturns
      exact (taken_constant h hconstant).2
  | multiplyConstant numerator denominator =>
      obtain ⟨product, _, hproduct, hreturns⟩ := returns_bind.mp hrun
      cases hreturns
      exact taken_multiplyConstant h hproduct
  | encode coefficients =>
      obtain ⟨modsat, _, hmodsat, hreturns⟩ := returns_bind.mp hrun
      cases hreturns
      exact taken_encode h hover hmodsat
  | fresh | zeroVariable | auxMultiplier denominator | jumpTo target =>
      obtain ⟨_, _, _, hreturns⟩ := returns_bind.mp hrun
      cases hreturns
      exact fun _ hmem => absurd hmem List.not_mem_nil

theorem zero_zeroVariable (hrun : (liftM Allocator.zeroVariable : Encoding Nat).Returns before index after) :
    after.zero = some index := by
  obtain ⟨counter, zero, constants, auxMultipliers⟩ := before
  cases zero <;> cases returns_lift.mp hrun <;> rfl

/-- A variable that an operation returns is new, unless it was remembered for the operation's holder. -/
theorem index?_perform (h : before.Layout base) (hrun : operation.perform.Returns before answer after)
    (hindex : answer.index? = some index) :
    before.counter < index ∧ index ≤ after.counter ∨
      ∃ holder, operation.holder? = some holder ∧ before.first? holder = some index := by
  have hremembered : ∀ {holder}, operation.holder? = some holder → after.first? holder = some index →
      before.counter < index ∧ index ≤ after.counter ∨
        ∃ holder, operation.holder? = some holder ∧ before.first? holder = some index := by
    intro holder hholder hfirst
    rcases (hrun.moves (moves_perform operation)).first?_or hfirst with hfirst | hnew
    · exact Or.inr ⟨holder, hholder, hfirst⟩
    · exact Or.inl hnew
  cases operation with
  | zeroFormula | multiplyConstant numerator denominator | encode coefficients | jumpTo target =>
      obtain ⟨_, _, _, hreturns⟩ := returns_bind.mp hrun
      cases hreturns
      cases hindex
  | constant denominator =>
      obtain ⟨result, _, hconstant, hreturns⟩ := returns_bind.mp hrun
      cases hreturns
      cases hindex
      exact hremembered rfl (taken_constant h hconstant).1
  | fresh =>
      obtain ⟨_, _, hfresh, hreturns⟩ := returns_bind.mp hrun
      cases hreturns
      cases hindex
      cases returns_lift.mp hfresh
      exact Or.inl ⟨Nat.lt_succ_self _, le_rfl⟩
  | zeroVariable =>
      obtain ⟨_, _, hzero, hreturns⟩ := returns_bind.mp hrun
      cases hreturns
      cases hindex
      exact hremembered rfl (zero_zeroVariable hzero)
  | auxMultiplier denominator =>
      obtain ⟨_, _, hallocation, hreturns⟩ := returns_bind.mp hrun
      cases hreturns
      cases hindex
      exact hremembered rfl (get?_auxMultiplier hallocation)

/-- The events of a session in their order: each performs its operation, and states move from one to the next. -/
theorem session_spec (operations : List Operation) : ∀ {before : Allocator} {events : List Event},
    session operations before = (events, final) → before.Moves final ∧
      (∀ event ∈ events, event.operation ∈ operations ∧
        event.operation.perform.run.run event.before = (event.outcome, event.after) ∧
        before.Moves event.before ∧ event.after.Moves final) ∧
      events.Pairwise fun earlier later => earlier.after.Moves later.before := by
  induction operations with
  | nil =>
      intro before events hrun
      cases hrun
      exact ⟨.refl, fun _ hmem => absurd hmem List.not_mem_nil, .nil⟩
  | cons operation operations ih =>
      intro before events hrun
      cases hrun
      have hmoves := moves_perform operation before
      have hrest : session operations (operation.perform.run.run before).2 = _ := rfl
      obtain ⟨hfinal, hevents, hordered⟩ := ih hrest
      refine ⟨Relation.ReflTransGen.trans hmoves hfinal, List.forall_mem_cons.mpr
        ⟨⟨List.mem_cons_self, rfl, .refl, hfinal⟩, fun event hevent => ?_⟩,
        List.pairwise_cons.mpr ⟨fun event hevent => ?_, hordered⟩⟩
      · obtain ⟨hmem, hperform, hbefore, hafter⟩ := hevents event hevent
        exact ⟨List.mem_cons_of_mem _ hmem, hperform, Relation.ReflTransGen.trans hmoves hbefore, hafter⟩
      · exact (hevents event hevent).2.2.1

/-- Scoping of a session on a new allocator that stays within the range of variables. The zero variable, the
constants with their chains and the multiples lie above the inputs and not above the counter, and no variable
belongs to two of them. No operation moves the counter back or takes a variable from its holder; a variable that it
returns is new or was remembered, and its formulas speak of inputs and of variables handed out by then. What is
remembered or spoken of once is not handed out later. -/
theorem session_scoped (dim : Nat) {operations : List Operation}
    (hover : ∀ operation ∈ operations, operation.Over dim)
    (hrun : session operations (.ofDim dim) = (events, final)) (hmax : final.counter ≤ variableMax) :
    (∀ holder index, final.Reserves holder index → dim < index ∧ index ≤ final.counter) ∧
      (∀ holder other index, final.Reserves holder index → final.Reserves other index → holder = other) ∧
      (∀ event ∈ events, event.before.counter ≤ event.after.counter ∧
        (∀ holder index, event.before.Reserves holder index → event.after.Reserves holder index) ∧
        ∀ answer, event.outcome = .ok answer →
          (∀ formula ∈ answer.formulas, ∀ index, formula.Mentions index →
            1 ≤ index ∧ index ≤ event.after.counter) ∧
          ∀ index, answer.index? = some index → event.Allocates index ∨
            ∃ holder, event.operation.holder? = some holder ∧ event.before.first? holder = some index) ∧
      events.Pairwise fun earlier later =>
        earlier.after.counter ≤ later.before.counter ∧
        (∀ holder index, earlier.after.Reserves holder index → ¬ later.Allocates index) ∧
        ∀ answer, earlier.outcome = .ok answer → ∀ formula ∈ answer.formulas, ∀ index,
          formula.Mentions index → ¬ later.Allocates index := by
  obtain ⟨hfinal, hevents, hordered⟩ := session_spec operations hrun
  have hstart := Allocator.layout_ofDim dim
  have hlayout := hfinal.layout hstart
  have hbefore : ∀ event ∈ events, event.before.Layout (Allocator.ofDim dim).counter :=
    fun event hevent => (hevents event hevent).2.2.1.layout hstart
  have hmoves : ∀ event ∈ events, event.before.Moves event.after := by
    intro event hevent
    have hafter := moves_perform event.operation event.before
    rwa [(hevents event hevent).2.1] at hafter
  have hreturns : ∀ event ∈ events, ∀ answer, event.outcome = .ok answer →
      event.operation.perform.Returns event.before answer event.after := by
    intro event hevent answer hanswer
    rw [Returns, (hevents event hevent).2.1, hanswer]
  have htaken : ∀ event ∈ events, ∀ answer, event.outcome = .ok answer → ∀ formula ∈ answer.formulas,
      ∀ index, formula.Mentions index → event.after.Taken index := by
    intro event hevent answer hanswer formula hformula
    exact Formula.within_iff.mp (taken_perform (hbefore event hevent) (hover _ (hevents event hevent).1)
      (hreturns event hevent answer hanswer) formula hformula)
  refine ⟨fun holder index hreserves => ?_, fun _ _ _ => hlayout.unique, fun event hevent => ?_, ?_⟩
  · obtain ⟨hlt, hle⟩ := hlayout.range hreserves
    -- with more inputs than variables the counter starts at its end, and nothing can be reserved
    have hstay : dim ≤ variableMax := by
      by_contra hdim
      exact absurd (hlt.trans_le (hle.trans hmax)) (not_lt.mpr (min_eq_right (not_le.mp hdim).le).ge)
    exact ⟨(le_min le_rfl hstay).trans_lt hlt, hle⟩
  · refine ⟨(hmoves event hevent).counter_le, fun _ _ => (hmoves event hevent).reserves, fun answer hanswer => ?_⟩
    exact ⟨htaken event hevent answer hanswer,
      fun index => index?_perform (hbefore event hevent) (hreturns event hevent answer hanswer)⟩
  · refine hordered.imp_of_mem fun {earlier later} hearlier _ horder => ?_
    have hcounter := horder.counter_le
    refine ⟨hcounter, fun holder index hreserves hallocates => ?_, fun answer hanswer formula hformula index
      hmentions hallocates => ?_⟩
    · have hle := (((hmoves earlier hearlier).layout (hbefore earlier hearlier)).range hreserves).2
      exact absurd hallocates.1 (not_lt.mpr (hle.trans hcounter))
    · have hle := (htaken earlier hearlier answer hanswer formula hformula index hmentions).2
      exact absurd hallocates.1 (not_lt.mpr (hle.trans hcounter))

/-- Operations of all kinds over one input; the jump to `3` and the multiple beyond one fail. -/
def mixed : List Operation :=
  [.constant 8, .fresh, .multiplyConstant 8 8, .zeroVariable, .jumpTo 3, .encode [⟨1, 2⟩, ⟨-1, 4⟩],
    .multiplyConstant 9 8, .jumpTo 40, .auxMultiplier 8, .constant 3]

/-- The chain of one eighth ends at the variable `5`, which no other holder and no later event gets. -/
theorem session_scoped_mixed :
    (session mixed (.ofDim 1)).2.counter ≤ variableMax ∧
      (session mixed (.ofDim 1)).2.Reserves (.constant 8) 5 ∧
      (∀ holder, (session mixed (.ofDim 1)).2.Reserves holder 5 → holder = .constant 8) ∧
      (session mixed (.ofDim 1)).1.Pairwise fun earlier later =>
        earlier.after.Reserves (.constant 8) 5 → ¬ later.Allocates 5 := by
  have hmax : (session mixed (.ofDim 1)).2.counter ≤ variableMax := by decide +kernel
  have hreserves : (session mixed (.ofDim 1)).2.Reserves (.constant 8) 5 :=
    ⟨2, by decide +kernel, by decide, by decide⟩
  obtain ⟨-, hunique, -, hordered⟩ := session_scoped 1 (show ∀ operation ∈ mixed, operation.Over 1 by decide)
    Prod.mk.eta.symm hmax
  exact ⟨hmax, hreserves, fun holder hholder => hunique holder _ 5 hholder hreserves,
    hordered.imp fun hpair => hpair.2.1 _ 5⟩

end Encoding

end ReluLogic
