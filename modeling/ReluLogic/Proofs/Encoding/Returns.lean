import ReluLogic.Encoding.Piece
import ReluLogic.Proofs.Encoding.Allocation

/-!
What the calls that encode a piece return, told from the calls that they make. A call that succeeds has gone one way
through its function. Here the way is named with the states that it leads through, so that what is shown of formulas
that are returned need not open the functions again.
-/

namespace ReluLogic

namespace Encoding

variable {before after : Allocator} {modsat : Modsat} {part : Part} {term : ScaledTerm} {terms : List ScaledTerm}

/-! ### Terms -/

/-- How the formulas for a term and for the whole of its input are read off the multiple of its unit. The larger of its
two numbers has that multiple itself, the smaller has a multiple off the chain behind the unit. -/
inductive Reading (term : ScaledTerm) (unit : Nat) (large : Formula) (middle : Allocator) :
    Formula → Formula → Allocator → Prop
  | equal (heq : term.numerator = term.denominator) : Reading term unit large middle large large middle
  | below {value after} (hlt : term.numerator < term.denominator)
      (hread : (liftM (chainMultiple term.numerator unit) : Encoding Formula).Returns middle value after) :
      Reading term unit large middle value large after
  | above {whole after} (hlt : term.denominator < term.numerator)
      (hread : (liftM (chainMultiple term.denominator unit) : Encoding Formula).Returns middle whole after) :
      Reading term unit large middle large whole after

theorem returns_inputTerm {constant : Nat} {definition : List Formula} :
    (inputTerm term constant definition).Returns before part after ↔
      term.input ≤ variableMax ∧ ∃ large middle value whole,
        (liftM (multiple (max term.numerator term.denominator) (.atom (before.counter + 1))) :
          Encoding Modsat).Returns { before with counter := before.counter + 1 } large middle ∧
        Reading term (before.counter + 1) large.phi middle value whole after ∧
        part = ⟨value, definition ++ large.defining ++ [whole.equivalent (.atom term.input),
          (Formula.atom (before.counter + 1)).push .implication (.atom constant)]⟩ := by
  rw [inputTerm]
  by_cases hmax : variableMax < term.input
  · rw [if_pos hmax]
    exact iff_of_false (fun hrun => by cases hrun) fun h => absurd hmax (not_lt.mpr h.1)
  rw [if_neg hmax]
  constructor
  · intro hrun
    obtain ⟨unit, first, hunit, hbehind⟩ := returns_bind.mp hrun
    cases returns_lift.mp hunit
    obtain ⟨large, middle, hlarge, hread⟩ := returns_bind.mp hbehind
    refine ⟨not_lt.mp hmax, large, middle, ?_⟩
    rcases lt_trichotomy term.numerator term.denominator with hlt | heq | hgt
    · simp only [if_neg hlt.ne, if_pos hlt, pure_bind] at hread
      obtain ⟨value, _, hvalue, hreturns⟩ := returns_bind.mp hread
      obtain ⟨rfl, rfl⟩ := hreturns.unique (returns_pure _ _)
      exact ⟨value, _, hlarge, .below hlt hvalue, rfl⟩
    · simp only [if_pos heq, pure_bind] at hread
      obtain ⟨rfl, rfl⟩ := hread.unique (returns_pure _ _)
      exact ⟨_, _, hlarge, .equal heq, rfl⟩
    · simp only [if_neg hgt.ne', if_neg hgt.not_gt, pure_bind] at hread
      obtain ⟨whole, _, hwhole, hreturns⟩ := returns_bind.mp hread
      obtain ⟨rfl, rfl⟩ := hreturns.unique (returns_pure _ _)
      exact ⟨_, whole, hlarge, .above hgt hwhole, rfl⟩
  · rintro ⟨-, large, middle, value, whole, hlarge, hreading, rfl⟩
    refine returns_bind.mpr ⟨before.counter + 1, _, returns_lift.mpr rfl,
      returns_bind.mpr ⟨large, middle, hlarge, ?_⟩⟩
    cases hreading with
    | equal heq =>
        rw [if_pos heq]
        exact returns_pure _ _
    | below hlt hread =>
        rw [if_neg hlt.ne, if_pos hlt]
        exact returns_bind.mpr ⟨value, after, hread, returns_pure _ _⟩
    | above hlt hread =>
        rw [if_neg hlt.ne', if_neg hlt.not_gt]
        exact returns_bind.mpr ⟨whole, after, hread, returns_pure _ _⟩

theorem returns_termPart :
    (termPart term).Returns before part after ↔ ∃ index definition middle,
      (constant term.denominator).Returns before (index, definition) middle ∧
        ((term.input = 0 ∧ ∃ product, (multiplyConstant term.numerator term.denominator).Returns middle product after ∧
            part = ⟨product.phi, definition ++ product.defining⟩) ∨
          (term.input ≠ 0 ∧ (inputTerm term index definition).Returns middle part after)) := by
  constructor
  · intro hrun
    obtain ⟨⟨index, definition⟩, middle, hconstant, hrest⟩ := returns_bind.mp hrun
    refine ⟨index, definition, middle, hconstant, ?_⟩
    change (if term.input = 0 then _ else _ : Encoding Part).Returns middle part after at hrest
    split_ifs at hrest with hinput
    · obtain ⟨product, _, hproduct, hreturns⟩ := returns_bind.mp hrest
      cases hreturns
      exact Or.inl ⟨hinput, product, hproduct, rfl⟩
    · exact Or.inr ⟨hinput, hrest⟩
  · rintro ⟨index, definition, middle, hconstant, hrest⟩
    refine returns_bind.mpr ⟨(index, definition), middle, hconstant, ?_⟩
    show (if term.input = 0 then _ else _ : Encoding Part).Returns middle part after
    rcases hrest with ⟨hinput, product, hproduct, rfl⟩ | ⟨hinput, hterm⟩
    · rw [if_pos hinput]
      exact returns_bind.mpr ⟨product, after, hproduct, returns_pure _ _⟩
    · rwa [if_neg hinput]

/-! ### Groups and pieces -/

theorem returns_addTerm {group : Modsat} :
    (addTerm group term).Returns before modsat after ↔
      (term.numerator = 0 ∧ modsat = group ∧ after = before) ∨
        (term.numerator ≠ 0 ∧ ∃ part, (termPart term).Returns before part after ∧
          modsat = ⟨group.phi.push .strongDisjunction part.formula, group.defining ++ part.defining⟩) := by
  rw [addTerm]
  constructor
  · intro hrun
    split_ifs at hrun with hzero
    · obtain ⟨rfl, rfl⟩ := hrun.unique (returns_pure _ _)
      exact Or.inl ⟨hzero, rfl, rfl⟩
    · obtain ⟨part, _, hpart, hreturns⟩ := returns_bind.mp hrun
      cases hreturns
      exact Or.inr ⟨hzero, part, hpart, rfl⟩
  · rintro (⟨hzero, rfl, rfl⟩ | ⟨hzero, part, hpart, rfl⟩)
    · rw [if_pos hzero]
      exact returns_pure _ _
    · rw [if_neg hzero]
      exact returns_bind.mpr ⟨part, after, hpart, returns_pure _ _⟩

theorem returns_group :
    (group terms).Returns before modsat after ↔
      (terms.all (·.numerator == 0) = true ∧ ∃ phi, (liftM zeroFormula : Encoding Formula).Returns before phi after ∧
          modsat = .ofFormula phi) ∨
        (¬ terms.all (·.numerator == 0) = true ∧ (terms.foldlM addTerm ⟨.empty, []⟩).Returns before modsat after) := by
  rw [group]
  split_ifs with hall
  · rw [returns_ofFormula_zeroFormula]
    exact ⟨fun h => Or.inl ⟨hall, h⟩, fun h => (h.resolve_right fun h => h.1 hall).2⟩
  · exact ⟨fun h => Or.inr ⟨hall, h⟩, fun h => (h.resolve_left fun h => hall h.1).2⟩

theorem returns_ofTerms {scale : Nat} :
    (ofTerms scale terms).Returns before modsat after ↔ ∃ positive first negative second scaled,
      (group (terms.filter (!·.negative))).Returns before positive first ∧
      (group (terms.filter (·.negative))).Returns first negative second ∧
      (liftM (multiple scale (positive.phi.push .implication negative.phi).negate) : Encoding Modsat).Returns
        second scaled after ∧
      modsat = ⟨scaled.phi, positive.defining ++ negative.defining ++ scaled.defining⟩ := by
  constructor
  · intro hrun
    obtain ⟨positive, first, hpositive, hrest⟩ := returns_bind.mp hrun
    obtain ⟨negative, second, hnegative, hrest⟩ := returns_bind.mp hrest
    obtain ⟨scaled, _, hscaled, hreturns⟩ := returns_bind.mp hrest
    cases hreturns
    exact ⟨positive, first, negative, second, scaled, hpositive, hnegative, hscaled, rfl⟩
  · rintro ⟨positive, first, negative, second, scaled, hpositive, hnegative, hscaled, rfl⟩
    exact returns_bind.mpr ⟨positive, first, hpositive, returns_bind.mpr ⟨negative, second, hnegative,
      returns_bind.mpr ⟨scaled, after, hscaled, returns_pure _ _⟩⟩⟩

theorem returns_encode {coefficients : List Fraction} :
    (encode coefficients).Returns before modsat after ↔
      (coefficients.all Fraction.isZero = true ∧
          ∃ phi, (liftM zeroFormula : Encoding Formula).Returns before phi after ∧ modsat = .ofFormula phi) ∨
        (¬ coefficients.all Fraction.isZero = true ∧ ∃ scale terms, prepare coefficients = .ok (scale, terms) ∧
          (ofTerms scale terms).Returns before modsat after) := by
  rw [encode]
  split_ifs with hall
  · rw [returns_ofFormula_zeroFormula]
    exact ⟨fun h => Or.inl ⟨hall, h⟩, fun h => (h.resolve_right fun h => h.1 hall).2⟩
  · constructor
    · intro hrun
      rcases hprepare : prepare coefficients with fault | ⟨scale, terms⟩ <;> rw [hprepare] at hrun
      · cases hrun
      · exact Or.inr ⟨hall, scale, terms, rfl, hrun⟩
    · rintro (⟨hzero, -⟩ | ⟨-, scale, terms, hprepare, hrun⟩)
      · exact absurd hzero hall
      · rw [hprepare]
        exact hrun

end Encoding

end ReluLogic
